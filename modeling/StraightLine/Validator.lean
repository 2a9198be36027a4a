import StraightLine.Compiler
import StraightLine.Query
import StraightLine.Report
import StraightLine.Settings

/-!
# Validator — questions with a memory

A validator asks its oracle whether a target agrees with its source. Verdicts that settle a
question are remembered under the fingerprint of the question; an open verdict and an error are
not.

* `Validator` — the oracle, the compiler and what is remembered;
* `Validator.validate` — the report for a pair of functions;
* `Validator.compileAndValidate` — compiles the source first.
-/

namespace StraightLine

structure Validator where
  oracle : Oracle
  /-- How many questions the oracle has been asked. -/
  asked : Nat
  compiler : Compiler
  timeoutMs : Nat
  cacheVerdicts : Bool
  verdicts : Std.HashMap String Verdict

namespace Validator

/-- A validator that remembers nothing. -/
def ofSettings (settings : Settings) (oracle : Oracle) : Validator :=
  { oracle
    asked := 0
    compiler := .ofLimits settings.limits
    timeoutMs := settings.timeoutMs
    cacheVerdicts := settings.cacheVerdicts
    verdicts := ∅ }

/-- Number of remembered verdicts. -/
def cachedVerdicts (v : Validator) : Nat :=
  v.verdicts.size

/-- The remembered verdict on a question, unless nothing is to be remembered. -/
def remembered? (v : Validator) (hash : String) : Option Verdict :=
  if v.cacheVerdicts then v.verdicts[hash]? else none

/-- Remembers a verdict that settles its question. -/
def remember (v : Validator) (hash : String) (verdict : Verdict) : Validator :=
  if v.cacheVerdicts && verdict.isConclusive then
    { v with verdicts := v.verdicts.insert hash verdict }
  else v

/-- Asks the oracle; silence makes the verdict inconclusive. -/
def ask (v : Validator) (q : Query) : Except OracleError Verdict × Validator :=
  let verdict :=
    match v.oracle.ask v.asked q.script with
    | .result r => .ok (.ofResult r)
    | .failed e => .error e
    | .silent => .ok (.ofSilence v.oracle.name v.timeoutMs)
  (verdict, { v with asked := v.asked + 1 })

def report (v : Validator) (q : Query) (hash : String) (verdict : Verdict) (cached : Bool) :
    Report :=
  { function := q.function
    verdict
    sourceReturn := q.sourceReturn
    targetReturn := q.targetReturn
    constraints := q.constraints
    oracle := v.oracle.name
    queryHash := hash
    cached }

/-- Answers a question, from memory if possible. -/
def settle (v : Validator) (q : Query) : Except ValidationError Report × Validator :=
  let hash := q.fingerprint
  match v.remembered? hash with
  | some verdict => (.ok (v.report q hash verdict true), v)
  | none =>
      match v.ask q with
      -- an error leaves nothing to remember, but the oracle has been asked
      | (.error e, v) => (.error (.oracle e), v)
      | (.ok verdict, v) => (.ok (v.report q hash verdict false), v.remember hash verdict)

/-- The question for a pair of functions whose source is not too deep. -/
def query (v : Validator) (source : Calc.Function) (target : Tac.Function) :
    Except CompileError Query := do
  v.compiler.limits.checkDepth source
  Query.build source target

def validate (v : Validator) (source : Calc.Function) (target : Tac.Function) :
    Except ValidationError Report × Validator :=
  match v.query source target with
  | .error e => (.error (.compile e), v)
  | .ok q => v.settle q

def compileAndValidate (v : Validator) (source : Calc.Function) :
    Except ValidationError (Tac.Function × Report) × Validator :=
  match v.compiler.compile source with
  | (.error e, compiler) => (.error (.compile e), { v with compiler })
  | (.ok target, compiler) =>
      match { v with compiler }.validate source target with
      | (.error e, v) => (.error e, v)
      | (.ok report, v) => (.ok (target, report), v)

end Validator

end StraightLine
