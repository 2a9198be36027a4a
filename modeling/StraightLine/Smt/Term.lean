/-!
# Term — terms and formulas over uninterpreted symbols

Only what the equivalence question needs: constants and applications of uninterpreted functions,
equality and three connectives.

* `UninterpretedSort`, `Constant`, `FunctionSymbol` — the vocabulary;
* `Term`, `Formula` — built over it;
* `Term.text`, `Formula.text` — a compact infix form for messages;
* `Term.smtlib`, `Formula.smtlib` — the form that a solver reads, where every symbol stands
  between bars, so that no name reads as a reserved word.
-/

namespace StraightLine

namespace Smt

/-- A sort of which nothing is known but its name. -/
structure UninterpretedSort where
  name : String
  deriving DecidableEq, Repr, Hashable

structure Constant where
  name : String
  sort : UninterpretedSort
  deriving DecidableEq, Repr, Hashable

structure FunctionSymbol where
  name : String
  domain : List UninterpretedSort
  range : UninterpretedSort
  deriving DecidableEq, Repr

inductive Term where
  | const (c : Constant)
  | app (f : FunctionSymbol) (args : List Term)

inductive Formula where
  | eq (left right : Term)
  | not (inner : Formula)
  | and (conjuncts : List Formula)
  | implies (antecedent consequent : Formula)

/-- A name as a solver's symbol. -/
def barred (name : String) : String :=
  "|" ++ name ++ "|"

/-! ## Terms -/

namespace Term

def sort : Term → UninterpretedSort
  | const c => c.sort
  | app f _ => f.range

mutual

def text : Term → String
  | const c => c.name
  | app f args => f.name ++ "(" ++ ", ".intercalate (texts args) ++ ")"

def texts : List Term → List String
  | [] => []
  | t :: rest => t.text :: texts rest

end

mutual

def smtlib : Term → String
  | const c => barred c.name
  | app f args => "(" ++ " ".intercalate (barred f.name :: smtlibs args) ++ ")"

def smtlibs : List Term → List String
  | [] => []
  | t :: rest => t.smtlib :: smtlibs rest

end

end Term

/-! ## Formulas -/

namespace Formula

mutual

def text : Formula → String
  | eq left right => left.text ++ " == " ++ right.text
  | not inner => "Not(" ++ inner.text ++ ")"
  | and conjuncts => "And(" ++ ", ".intercalate (texts conjuncts) ++ ")"
  | implies antecedent consequent => "Implies(" ++ antecedent.text ++ ", " ++ consequent.text ++ ")"

def texts : List Formula → List String
  | [] => []
  | f :: rest => f.text :: texts rest

end

mutual

/-- A conjunction is written with `and` only from two conjuncts on; a single conjunct stands for
itself, and none for `true`. -/
def smtlib : Formula → String
  | eq left right => "(= " ++ left.smtlib ++ " " ++ right.smtlib ++ ")"
  | not inner => "(not " ++ inner.smtlib ++ ")"
  | and [] => "true"
  | and [single] => single.smtlib
  | and conjuncts => "(" ++ " ".intercalate ("and" :: smtlibs conjuncts) ++ ")"
  | implies antecedent consequent =>
      "(=> " ++ antecedent.smtlib ++ " " ++ consequent.smtlib ++ ")"

def smtlibs : List Formula → List String
  | [] => []
  | f :: rest => f.smtlib :: smtlibs rest

end

end Formula

end Smt

end StraightLine
