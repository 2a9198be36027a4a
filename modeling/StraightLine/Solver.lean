import StraightLine.SExpr
import StraightLine.Smt.Model
import StraightLine.Smt.Script

/-!
# Solver — a decision procedure that reads scripts and writes replies

A solver is a program that is given a script and the commands that ask for an answer and for a
model. Running programs is left to a `Host`.

* `SolverSettings`, `Host` — which program to run, and what the machine can run;
* `SolverSettings.locate` — the path of the program;
* `Solver.readReply` — a reply as an answer; `Solver.readModel` — the values in it;
* `SolverSettings.check` — one question to a solver.
-/

namespace StraightLine

open Smt

/-! ## Errors -/

/-- Why a decision procedure gave no answer. -/
inductive OracleError where
  /-- The program is nowhere on the search path. -/
  | unavailable (program : String)
  /-- The program could not be started or read. -/
  | io (reason : String)
  | emptyReply
  /-- The solver reported an error. -/
  | refused (line : String)
  | unexpectedReply (line : String)
  /-- The task that runs the procedure did not finish. -/
  | task (reason : String)
  deriving DecidableEq, Repr

namespace OracleError

def message : OracleError → String
  | unavailable program =>
      "solver unavailable: `" ++ program ++ "` not found on PATH: cannot find binary path"
  | io reason => "solver i/o failed: " ++ reason
  | emptyReply => "unexpected solver output: empty solver output"
  | refused line => "unexpected solver output: " ++ line
  | unexpectedReply line => "unexpected solver output: unexpected response `" ++ line ++ "`"
  | task reason => "oracle task failed: " ++ reason

end OracleError

/-! ## Programs -/

structure SolverSettings where
  /-- Looked up on the search path if no path is given. -/
  program : String := "z3"
  path : Option String := none
  /-- What makes the program read a script from its standard input. -/
  args : List String := ["-in", "-smt2"]
  deriving DecidableEq, Repr

/-- What a machine can run. -/
structure Host where
  /-- The path of a program on the search path. -/
  find : String → Option String
  /-- What the program at a path writes, given arguments and an input, or why it cannot be run. -/
  run : (path : String) → (args : List String) → (input : String) → Except String String

/-- A machine on which there is nothing to run. -/
def Host.bare : Host :=
  { find := fun _ => none
    run := fun _ _ _ => .error "No such file or directory (os error 2)" }

def SolverSettings.locate (settings : SolverSettings) (host : Host) : Except OracleError String :=
  match settings.path with
  | some path => .ok path
  | none =>
      match host.find settings.program with
      | some path => .ok path
      | none => .error (.unavailable settings.program)

/-! ## Replies -/

namespace Solver

/-- A name without the bars around it. -/
def unbarred (name : List Char) : List Char :=
  Text.trimBy (· == '|') name

/-- The name and the value of a definition without parameters. -/
def definition? : List SExpr → Option (List Char × SExpr)
  | [.atom head, .atom name, .list [], _, value] =>
      if head = "define-fun".toList then some (name, value) else none
  | _ => none

mutual

/-- Adds the definitions in an expression to a model, at any depth outside of other definitions. -/
def addDefinitions (m : Model) : SExpr → Model
  | .atom _ => m
  | .list items =>
      match definition? items with
      -- a definition is taken as a whole: nothing inside its value is looked at
      | some (name, value) => m.insert (String.ofList (unbarred name)) (String.ofList value.text)
      | none => addAllDefinitions m items

def addAllDefinitions (m : Model) : List SExpr → Model
  | [] => m
  | item :: rest => addAllDefinitions (addDefinitions m item) rest

end

/-- The values of constants in the text after `sat`. -/
def readModel (text : List Char) : Model :=
  addAllDefinitions .empty (SExpr.readAll text)

/-- The first line that is not blank decides; after `sat` the other lines are the model. -/
def readReply (output : String) : Except OracleError CheckResult :=
  match Text.lines output.toList with
  | [] => .error .emptyReply
  | first :: rest =>
      if first = "unsat".toList then .ok .unsat
      else if first = "unknown".toList then .ok (.unknown "solver returned unknown")
      else if first = "sat".toList then .ok (.sat (readModel (['\n'].intercalate rest)))
      else if "(error".toList.isPrefixOf first then .error (.refused (String.ofList first))
      else .error (.unexpectedReply (String.ofList first))

end Solver

/-- Asks the solver about a script. -/
def SolverSettings.check (settings : SolverSettings) (host : Host) (script : Script) :
    Except OracleError CheckResult := do
  let path ← settings.locate host
  match host.run path settings.args (script.smtlib ++ "(check-sat)\n(get-model)\n(exit)\n") with
  | .error reason => throw (.io reason)
  | .ok output => Solver.readReply output

end StraightLine
