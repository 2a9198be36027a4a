import StraightLine.Error
import StraightLine.Oracle

/-!
# Report — what came out of one question

* `Verdict` — the target agrees with the source, it does not, or nothing is known;
* `Verdict.ofResult`, `Verdict.ofSilence` — the verdict for an answer;
* `Report` — the verdict with the question it belongs to;
* `Report.ensurePass` — anything but an agreement as an error.
-/

namespace StraightLine

open Smt

inductive Verdict where
  | pass
  | fail (model : Model)
  | inconclusive (reason : String)

inductive ValidationError where
  | compile (e : CompileError)
  | oracle (e : OracleError)
  | oracleUnknown (function reason : String)
  | notEquivalent (function : String) (counterexample : Model)

namespace ValidationError

def message : ValidationError → String
  | compile e => e.message
  | oracle e => e.message
  | oracleUnknown function reason =>
      "oracle could not decide equivalence of `" ++ function ++ "`: " ++ reason
  | notEquivalent function counterexample =>
      "lowering of `" ++ function ++ "` is not equivalent: " ++ counterexample.text

end ValidationError

namespace Verdict

/-- An unsatisfiable question means agreement. -/
def ofResult : CheckResult → Verdict
  | .unsat => pass
  | .sat model => fail model
  | .unknown reason => inconclusive reason

def ofSilence (oracle : String) (timeoutMs : Nat) : Verdict :=
  inconclusive (oracle ++ " did not answer within " ++ toString timeoutMs ++ " ms")

def isPass : Verdict → Bool
  | pass => true
  | _ => false

/-- Whether the same question need not be asked again. -/
def isConclusive : Verdict → Bool
  | inconclusive _ => false
  | _ => true

/-- Anything but an agreement is an error of `function`. -/
def ensurePass (function : String) : Verdict → Except ValidationError Unit
  | pass => .ok ()
  | fail model => .error (.notEquivalent function model)
  | inconclusive reason => .error (.oracleUnknown function reason)

end Verdict

structure Report where
  function : String
  verdict : Verdict
  sourceReturn : String
  targetReturn : String
  constraints : Nat
  oracle : String
  queryHash : String
  /-- Whether the verdict was remembered from an earlier question. -/
  cached : Bool

namespace Report

def isPass (r : Report) : Bool :=
  r.verdict.isPass

def ensurePass (r : Report) : Except ValidationError Unit :=
  r.verdict.ensurePass r.function

end Report

end StraightLine
