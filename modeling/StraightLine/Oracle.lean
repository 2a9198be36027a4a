import StraightLine.Congruence
import StraightLine.Solver

/-!
# Oracle — what decides questions

An oracle may answer every question differently, fail, or stay silent; the questions of a session
are numbered.

* `Answer`, `Oracle` — the interface;
* `Oracle.congruence` — decides every question by congruence closure;
* `Oracle.solver` — asks a solver program;
* `Oracle.scripted` — gives prepared replies in turn.
-/

namespace StraightLine

open Smt

inductive Answer where
  | result (r : CheckResult)
  | failed (e : OracleError)
  /-- Nothing was answered in time. -/
  | silent

/-- The answer that a check amounts to. -/
def Answer.ofCheck : Except OracleError CheckResult → Answer
  | .ok r => .result r
  | .error e => .failed e

structure Oracle where
  name : String
  /-- The answer to the question with a number. -/
  ask : Nat → Script → Answer

namespace Oracle

def congruence : Oracle :=
  { name := "congruence"
    ask := fun _ script => .result (Congruence.decide script.assertions.toList) }

def solver (settings : SolverSettings) (host : Host) : Oracle :=
  { name := settings.program
    ask := fun _ script => .ofCheck (settings.check host script) }

/-- Question `k` gets reply `k` modulo their number, read as a solver's output; without a reply the
oracle is silent. -/
def scripted (name : String) (replies : Array (Option String)) : Oracle :=
  { name
    ask := fun k _ =>
      match replies.getD (k % replies.size) none with
      | some output => .ofCheck (Solver.readReply output)
      | none => .silent }

end Oracle

end StraightLine
