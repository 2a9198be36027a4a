import Std.Data.HashSet
import StraightLine.Calc.Parser
import StraightLine.Identifier

/-!
# Limits — which Calc functions the compiler accepts

Two limits bound the size of a function; the other conditions say that its names are identifiers,
that its parameters differ, and that every name is bound before it is read. The first violated
condition is the error.

* `Limits` — the largest number of statements and the largest operator depth;
* `Limits.checkDepth` — the depth limit alone;
* `Calc.checkParams`, `Calc.checkDefinitions` — the conditions on names;
* `Limits.check` — all conditions in order.
-/

namespace StraightLine

structure Limits where
  maxStatements : Nat := 10000
  maxDepth : Nat := Calc.defaultMaxDepth
  deriving DecidableEq, Repr

namespace Calc

/-- Parameters are identifiers and none comes twice; `seen` holds those before. -/
def checkParams (function : String) :
    (seen : Std.HashSet String) → List String → Except CompileError Unit
  | _, [] => .ok ()
  | seen, p :: rest =>
      if !isIdentifier p then .error (.malformed function (.paramNotIdentifier p))
      else if seen.contains p then .error (.malformed function (.duplicateParam p))
      else checkParams function (seen.insert p) rest

/-- Every name in `names` is defined. -/
def checkReads (function : String) (defined : Std.HashSet String) :
    List String → Except CompileError Unit
  | [] => .ok ()
  | x :: rest =>
      if defined.contains x then checkReads function defined rest
      else .error (.undefinedVariable function x)

/-- Each statement reads defined names only and assigns to an identifier, which is defined after it.
Answers with all names that are defined in the end. -/
def checkStatements (function : String) :
    (defined : Std.HashSet String) → List (Assignment Expr) →
      Except CompileError (Std.HashSet String)
  | defined, [] => .ok defined
  | defined, s :: rest =>
      match checkReads function defined s.value.reads with
      | .error e => .error e
      | .ok () =>
          if isIdentifier s.target then
            checkStatements function (defined.insert s.target) rest
          else .error (.malformed function (.targetNotIdentifier s.target))

/-- Every read follows a parameter or an earlier assignment of the same name. -/
def checkDefinitions (f : Function) : Except CompileError Unit := do
  let defined ← checkStatements f.name (Std.HashSet.ofList f.params) f.body
  checkReads f.name defined f.result.reads

end Calc

namespace Limits

/-- No expression among `exprs` is deeper than the limit. -/
def checkDepths (limits : Limits) (function : String) : List Expr → Except CompileError Unit
  | [] => .ok ()
  | e :: rest =>
      let depth := e.depth
      if limits.maxDepth < depth then
        .error (.malformed function (.tooDeep depth limits.maxDepth))
      else checkDepths limits function rest

/-- No statement and no result is deeper than the limit. -/
def checkDepth (limits : Limits) (f : Calc.Function) : Except CompileError Unit :=
  limits.checkDepths f.name f.exprs

/-- The function can be compiled, as far as its names and its size go. -/
def check (limits : Limits) (f : Calc.Function) : Except CompileError Unit := do
  if !isIdentifier f.name then
    throw (.malformed f.name .nameNotIdentifier)
  if limits.maxStatements < f.body.length then
    throw (.malformed f.name (.tooManyStatements f.body.length limits.maxStatements))
  limits.checkDepth f
  Calc.checkParams f.name ∅ f.params
  Calc.checkDefinitions f

end Limits

end StraightLine
