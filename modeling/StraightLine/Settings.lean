import StraightLine.Json.Parser
import StraightLine.Limits
import StraightLine.Oracle

/-!
# Settings — how a validator is set up

Settings are read from a JSON record in which every field may be missing, and changed by a few named
overrides.

* `OracleKind`, `Settings` — what can be set;
* `Settings.load` — the settings in a file;
* `Settings.override` — the settings with overrides;
* `Settings.chosenOracle` — the oracle they choose.
-/

namespace StraightLine

inductive OracleKind where
  | congruence
  | smtLib
  deriving DecidableEq, Repr

structure Settings where
  oracle : OracleKind := .congruence
  timeoutMs : Nat := 10000
  cacheVerdicts : Bool := true
  limits : Limits := {}
  solver : SolverSettings := {}
  deriving DecidableEq, Repr

inductive SettingsError where
  | unreadable (path : String)
  | invalid (path : String)
  | unknownOracle (name : String)
  | badTimeout (text : String)
  deriving DecidableEq, Repr

/-! ## Names of overrides -/

namespace Override

def oracle : String := "CALC_TV_ORACLE"

def solver : String := "CALC_TV_SOLVER"

def solverArgs : String := "CALC_TV_SOLVER_ARGS"

def timeoutMs : String := "CALC_TV_TIMEOUT_MS"

end Override

namespace SettingsError

def message : SettingsError → String
  | unreadable path => "failed to read config " ++ path
  | invalid path => "invalid config " ++ path
  | unknownOracle name =>
      "unknown oracle `" ++ name ++ "` (expected `congruence` or `smtlib`)"
  | badTimeout text => Override.timeoutMs ++ " must be milliseconds, got `" ++ text ++ "`"

end SettingsError

/-! ## Kinds of oracles -/

namespace OracleKind

/-- The name in a settings file and in a report. -/
def name : OracleKind → String
  | congruence => "congruence"
  | smtLib => "smt_lib"

def ofName? (name : String) : Option OracleKind :=
  if name = "congruence" then some congruence
  else if name = "smt_lib" then some smtLib
  else none

/-- The kind that an override names: blanks around it and the case of ASCII letters do not matter,
and there are shorter spellings. -/
def ofOverride (text : String) : Except SettingsError OracleKind :=
  let name := String.ofList ((Text.trim text.toList).map Char.toLower)
  if name = "congruence" ∨ name = "cc" then .ok congruence
  else if name = "smtlib" ∨ name = "smt_lib" ∨ name = "smt-lib" then .ok smtLib
  else .error (.unknownOracle name)

end OracleKind

namespace Settings

/-! ## Files -/

/-- A solver's part of a settings file. -/
def solverOfJson? (j : Json) : Option SolverSettings := do
  let standard : SolverSettings := {}
  let fields ← j.record? ["program", "path", "args"]
  return {
    program := ← fields.getOr? "program" Json.string? standard.program
    path := ← fields.getOr? "path" Json.nullOrString? standard.path
    args := ← fields.getOr? "args" Json.strings? standard.args }

def ofJson? (j : Json) : Option Settings := do
  let standard : Settings := {}
  let fields ← j.record? ["oracle", "oracle_timeout_ms", "cache_verdicts", "max_statements",
    "max_expression_depth", "solver"]
  return {
    oracle := ← fields.getOr? "oracle" (fun j => j.alternative?.bind OracleKind.ofName?)
      standard.oracle
    timeoutMs := ← fields.getOr? "oracle_timeout_ms" Json.natural? standard.timeoutMs
    cacheVerdicts := ← fields.getOr? "cache_verdicts" Json.bool? standard.cacheVerdicts
    limits := {
      maxStatements := ← fields.getOr? "max_statements" Json.natural? standard.limits.maxStatements
      maxDepth := ← fields.getOr? "max_expression_depth" Json.natural? standard.limits.maxDepth }
    solver := ← fields.getOr? "solver" solverOfJson? standard.solver }

/-- The settings in the text of a file. -/
def parse? (text : String) : Option Settings :=
  (Json.parse? text).bind ofJson?

/-- The settings in the file at `path`, given what can be read there. -/
def load (path : String) (content : Option String) : Except SettingsError Settings :=
  match content with
  | none => .error (.unreadable path)
  | some text =>
      match parse? text with
      | some settings => .ok settings
      | none => .error (.invalid path)

/-! ## Overrides -/

/-- Decimal digits, after at most one plus sign, of a number below `2 ^ 64`. -/
def milliseconds? (text : List Char) : Option Nat :=
  let digits :=
    match text with
    | '+' :: digits => digits
    | digits => digits
  if digits.isEmpty || !digits.all Char.isDigit then none
  else Json.wordOfDigits? digits

/-- A text with a slash is the path of a solver; any other is looked up on the search path. -/
def chooseSolver (solver : SolverSettings) (text : String) : SolverSettings :=
  if text.toList.contains '/' then { solver with path := some text }
  else { solver with program := text, path := none }

def overrideTimeout (text : String) : Except SettingsError Nat :=
  match milliseconds? (Text.trim text.toList) with
  | some ms => .ok ms
  | none => .error (.badTimeout text)

/-- Replaces what `lookup` has a value for. -/
def override (settings : Settings) (lookup : String → Option String) :
    Except SettingsError Settings := do
  let oracle ←
    match lookup Override.oracle with
    | some text => OracleKind.ofOverride text
    | none => pure settings.oracle
  let solver :=
    match lookup Override.solver with
    | some text => chooseSolver settings.solver text
    | none => settings.solver
  -- the arguments are replaced whichever program they are for
  let solver :=
    match lookup Override.solverArgs with
    | some text => { solver with args := (Text.words text.toList).map String.ofList }
    | none => solver
  let timeoutMs ←
    match lookup Override.timeoutMs with
    | some text => overrideTimeout text
    | none => pure settings.timeoutMs
  return { settings with oracle, solver, timeoutMs }

/-! ## Oracles -/

/-- The oracle that the settings choose. -/
def chosenOracle (settings : Settings) (host : Host) : Oracle :=
  match settings.oracle with
  | .congruence => .congruence
  | .smtLib => .solver settings.solver host

end Settings

end StraightLine
