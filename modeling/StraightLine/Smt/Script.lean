import StraightLine.Smt.Term

/-!
# Script — declarations and assertions for one question

A script grows by declarations and assertions and keeps their order. Declaring a sort or a
function again answers with the first declaration of that name; a constant is declared once for
its name and sort.

* `Script.declareSort`, `Script.declareFunction`, `Script.declareConstant`, `Script.assert`;
* `Script.smtlib` — the commands that a solver reads, without those that ask for an answer.
-/

namespace StraightLine

namespace Smt

structure Script where
  sorts : Array UninterpretedSort := #[]
  functions : Array FunctionSymbol := #[]
  constants : Array Constant := #[]
  assertions : Array Formula := #[]

namespace Script

def empty : Script := {}

def declareSort (s : Script) (name : String) : UninterpretedSort × Script :=
  match s.sorts.find? fun sort => sort.name == name with
  | some sort => (sort, s)
  | none =>
      let sort : UninterpretedSort := { name }
      (sort, { s with sorts := s.sorts.push sort })

def declareFunction (s : Script) (name : String) (domain : List UninterpretedSort)
    (range : UninterpretedSort) : FunctionSymbol × Script :=
  match s.functions.find? fun f => f.name == name with
  | some f => (f, s)
  | none =>
      let f : FunctionSymbol := { name, domain, range }
      (f, { s with functions := s.functions.push f })

def declareConstant (s : Script) (c : Constant) : Script :=
  if s.constants.contains c then s else { s with constants := s.constants.push c }

def assert (s : Script) (f : Formula) : Script :=
  { s with assertions := s.assertions.push f }

theorem declareConstant_of_mem {s : Script} {c : Constant} (h : c ∈ s.constants) :
    s.declareConstant c = s := by
  simp [declareConstant, h]

theorem declareConstant_of_not_mem {s : Script} {c : Constant} (h : c ∉ s.constants) :
    s.declareConstant c = { s with constants := s.constants.push c } := by
  simp [declareConstant, h]

/-! ## Commands -/

def declareSortText (sort : UninterpretedSort) : String :=
  "(declare-sort " ++ barred sort.name ++ " 0)\n"

def declareFunctionText (f : FunctionSymbol) : String :=
  "(declare-fun " ++ barred f.name ++ " (" ++
    " ".intercalate (f.domain.map fun sort => barred sort.name) ++ ") " ++
    barred f.range.name ++ ")\n"

def declareConstantText (c : Constant) : String :=
  "(declare-const " ++ barred c.name ++ " " ++ barred c.sort.name ++ ")\n"

def assertText (f : Formula) : String :=
  "(assert " ++ f.smtlib ++ ")\n"

/-- Option, logic, declarations and assertions, one command a line. -/
def smtlib (s : Script) : String :=
  "(set-option :produce-models true)\n(set-logic QF_UF)\n" ++
    String.join (s.sorts.toList.map declareSortText) ++
    String.join (s.functions.toList.map declareFunctionText) ++
    String.join (s.constants.toList.map declareConstantText) ++
    String.join (s.assertions.toList.map assertText)

end Script

end Smt

end StraightLine
