import Std.Data.HashMap
import StraightLine.FreshNames.Reserved
import StraightLine.Tac

/-!
# SingleAssignment — every name is assigned once

Each statement assigns to a new generated name, and each read is redirected to the name that
holds the value at that point. Parameters start as their own names.

The languages differ at the end. A Calc result may be an expression, so it is assigned by one
more statement and the function returns that statement's target; a Tac result is a name already
and is only renamed.

* `SingleAssignment.calcStem`, `SingleAssignment.tacStem` — the generated names of either language;
* `SingleAssignment.body` — the renaming of statements;
* `Calc.Function.toSsa`, `Tac.Function.toSsa` — the conversions.
-/

namespace StraightLine

namespace SingleAssignment

def calcStem (function : String) : String :=
  "_calc_" ++ function

def tacStem (function : String) : String :=
  "_tac_" ++ function

/-- From a name of the program to the name that holds its value now. -/
abbrev Renaming : Type :=
  Std.HashMap String String

namespace Renaming

/-- Parameters hold their own values. -/
def ofParams (params : List String) : Renaming :=
  params.foldl (fun table p => table.insert p p) ∅

def lookup (function : String) (table : Renaming) (name : String) : Except CompileError String :=
  match table[name]? with
  | some current => .ok current
  | none => .error (.undefinedVariable function name)

theorem lookup_insert (function : String) (table : Renaming) (name current other : String) :
    lookup function (table.insert name current) other =
      if name = other then .ok current else lookup function table other := by
  by_cases h : name = other
  · simp [lookup, h]
  · simp [lookup, h, Std.HashMap.getElem?_insert]

end Renaming

/-- Renamed statements, with the renaming and the generator after them. -/
structure Converted (V : Type) where
  body : List (Assignment V)
  table : Renaming
  fresh : FreshNames

/-- How the names in a right-hand side are replaced. -/
abbrev RenameValue (V : Type) : Type :=
  (String → Except CompileError String) → V → Except CompileError V

/-- Renames the reads of each statement, then gives its target a new name. -/
def body {V : Type} (renameValue : RenameValue V) (function : String) :
    Renaming → FreshNames → List (Assignment V) → Except CompileError (Converted V)
  | table, fresh, [] => .ok ⟨[], table, fresh⟩
  | table, fresh, s :: rest =>
      match renameValue (table.lookup function) s.value with
      | .error e => .error e
      | .ok value =>
          -- the reads are renamed first, so that a statement may read its own target
          let (name, fresh) := fresh.nextName
          match body renameValue function (table.insert s.target name) fresh rest with
          | .error e => .error e
          | .ok c => .ok { c with body := ⟨name, value⟩ :: c.body }

end SingleAssignment

open SingleAssignment

/-- The single-assignment form of a Calc function. It fails if a parameter or a target looks
generated, or at the first name that is read before it is bound. -/
def Calc.Function.toSsa (f : Calc.Function) : Except CompileError Calc.Function := do
  let fresh := FreshNames.ofStem (calcStem f.name)
  fresh.checkUnowned (f.params ++ f.targets)
  let c ← body Expr.rename f.name (Renaming.ofParams f.params) fresh f.body
  let result ← f.result.rename (c.table.lookup f.name)
  -- the result may be any expression, so it is assigned once more
  let last := c.fresh.nextName.1
  return { f with body := c.body ++ [⟨last, result⟩], result := .var last }

/-- The single-assignment form of a Tac function; it fails under the same conditions. -/
def Tac.Function.toSsa (f : Tac.Function) : Except CompileError Tac.Function := do
  let fresh := FreshNames.ofStem (tacStem f.name)
  fresh.checkUnowned (f.params ++ f.targets)
  let c ← body Tac.Value.rename f.name (Renaming.ofParams f.params) fresh f.body
  let result ← c.table.lookup f.name f.result
  return { f with body := c.body, result }

end StraightLine
