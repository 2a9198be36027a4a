import StraightLine.Digest
import StraightLine.Encoding
import StraightLine.SingleAssignment

/-!
# Query — the question whether a target computes what its source does

Both functions are put into single-assignment form and encoded together. With `r` and `s` the
constants of the returned names, the one assertion denies that the equations of both functions
imply `r = s`. If it cannot be satisfied, the functions agree for every meaning of the operators.

* `Query` — the script, the two returned names and the number of equations;
* `Query.checkDisjoint` — neither function uses names that are generated for the other;
* `Query.build` — the question for a pair of functions;
* `Query.fingerprint` — the digest of the script as a solver reads it.
-/

namespace StraightLine

open Smt SingleAssignment

structure Query where
  function : String
  script : Script
  sourceReturn : String
  targetReturn : String
  constraints : Nat

namespace Query

/-- The target has no name of the source's single-assignment form, and the source none of the
target's.
-/
def checkDisjoint (source : Calc.Function) (target : Tac.Function) : Except CompileError Unit := do
  (FreshNames.ofStem (calcStem source.name)).checkUnowned target.names
  (FreshNames.ofStem (tacStem target.name)).checkUnowned source.names

/-- What is asserted of two returned constants under the equations of both functions. -/
def goal (equations : List Formula) (source target : Constant) : Formula :=
  .not (.implies (.and equations) (.eq (.const source) (.const target)))

/-- The question for two functions in single-assignment form. -/
def ofSsa (source : Calc.Function) (sourceReturn : String) (target : Tac.Function) : Query :=
  -- a constant is declared where it is met first, so the order of these steps shows in the script
  let (sourceEquations, enc) := Encoding.empty.calcBody source
  let (targetEquations, enc) := enc.tacBody target
  let equations := sourceEquations ++ targetEquations
  let (s, enc) := enc.constant sourceReturn
  let (t, enc) := enc.constant target.result
  { function := source.name
    script := (enc.assert (goal equations s t)).script
    sourceReturn
    targetReturn := target.result
    constraints := equations.length }

def build (source : Calc.Function) (target : Tac.Function) : Except CompileError Query := do
  -- the parameters are shared by both encodings, so they have to be the same in the same order
  if source.params ≠ target.params then
    throw (.malformed source.name (.paramsDiffer source.params target.params))
  checkDisjoint source target
  let sourceSsa ← source.toSsa
  let targetSsa ← target.toSsa
  match sourceSsa.returnVar? with
  | none => throw (.invalidReturnShape sourceSsa.result)
  | some sourceReturn => return ofSsa sourceSsa sourceReturn targetSsa

def fingerprint (q : Query) : String :=
  Digest.ofText q.script.smtlib

end Query

end StraightLine
