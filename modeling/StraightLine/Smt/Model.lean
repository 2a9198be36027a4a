import Std.Data.TreeMap

/-!
# Model — what a satisfying interpretation gives to the constants

Values are a solver's names for elements, such as `S!val!0`. Entries are kept in the order of their
names, by code points.

* `Model.insert`, `Model.get?` — writing replaces an earlier value of the same name;
* `Model.text` — the entries in brackets.
-/

namespace StraightLine

namespace Smt

structure Model where
  values : Std.TreeMap String String
  deriving Repr

namespace Model

def empty : Model :=
  { values := ∅ }

def insert (m : Model) (name value : String) : Model :=
  { values := m.values.insert name value }

def get? (m : Model) (name : String) : Option String :=
  m.values[name]?

def size (m : Model) : Nat :=
  m.values.size

def isEmpty (m : Model) : Bool :=
  m.values.isEmpty

/-- The entries in the order of their names. -/
def toList (m : Model) : List (String × String) :=
  m.values.toList

/-- The entries written in order; of two with one name the later one stays. -/
def ofList (entries : List (String × String)) : Model :=
  entries.foldl (fun m e => m.insert e.1 e.2) empty

def text (m : Model) : String :=
  "[" ++ ", ".intercalate (m.toList.map fun e => e.1 ++ " = " ++ e.2) ++ "]"

@[simp]
theorem get?_empty (name : String) : empty.get? name = none := by
  simp [empty, get?]

theorem get?_insert (m : Model) (name value other : String) :
    (m.insert name value).get? other = if name = other then some value else m.get? other := by
  simp [insert, get?, Std.TreeMap.getElem?_insert]

end Model

/-- The answer to a satisfiability question. -/
inductive CheckResult where
  | sat (model : Model)
  | unsat
  | unknown (reason : String)
  deriving Repr

end Smt

end StraightLine
