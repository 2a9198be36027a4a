import StraightLine.FreshNames.Reserved
import StraightLine.Tac

/-!
# Lowering — from nested expressions to three addresses

Every inner operation gets a temporary of its own; the outermost operation of a statement writes
the statement's target. Operands are flattened from left to right, and an operation draws its
temporary after both of its operands. One last statement copies the returned variable into a
temporary, so that the result is the target of the last statement.

* `Lowering.stem` — what the temporaries of a function are called;
* `Lowering.flatten` — an expression as code and the name that holds its value;
* `Lowering.body` — the code of all statements;
* `Calc.Function.lower` — a whole function, or the reason why it cannot be lowered.
-/

namespace StraightLine

namespace Lowering

/-- Temporaries are numbered over this stem. -/
def stem (function : String) : String :=
  "_tmp_" ++ function

abbrev Code := List (Assignment Tac.Value)

/-- Code that computes an expression, the name that holds the value after it, and the generator of
the temporaries that come next. -/
structure Flattened where
  code : Code
  name : String
  fresh : FreshNames

def flatten (fresh : FreshNames) : Expr → Flattened
  | .var name => ⟨[], name, fresh⟩
  | .binary op left right =>
      let l := flatten fresh left
      let r := flatten l.fresh right
      -- both operands have drawn their temporaries before this one
      let (target, fresh) := r.fresh.nextName
      ⟨l.code ++ r.code ++ [⟨target, .binary op l.name r.name⟩], target, fresh⟩

/-- One statement: the outermost operation assigns the target itself. -/
def statement (fresh : FreshNames) (target : String) : Expr → Code × FreshNames
  | .var name => ([⟨target, .copy name⟩], fresh)
  | .binary op left right =>
      let l := flatten fresh left
      let r := flatten l.fresh right
      (l.code ++ r.code ++ [⟨target, .binary op l.name r.name⟩], r.fresh)

def body : FreshNames → List (Assignment Expr) → Code × FreshNames
  | fresh, [] => ([], fresh)
  | fresh, s :: rest =>
      let (code, fresh) := statement fresh s.target s.value
      let (more, fresh) := body fresh rest
      (code ++ more, fresh)

end Lowering

namespace Calc

namespace Function

open Lowering

/-- The names in which a temporary could hide: parameters, targets, and what the statements read. -/
def lowerableNames (f : Function) : List String :=
  f.params ++ f.targets ++ f.body.flatMap (fun s => s.value.reads)

def lower (f : Function) : Except CompileError Tac.Function :=
  match f.returnVar? with
  | none => .error (.invalidReturnShape f.result)
  | some returned => do
      let fresh := FreshNames.ofStem (stem f.name)
      fresh.checkUnowned f.lowerableNames
      let (code, fresh) := body fresh f.body
      -- the result is bound once more, so that it is the target of the last statement
      let last := fresh.nextName.1
      return {
        name := f.name
        params := f.params
        body := code ++ [⟨last, .copy returned⟩]
        result := last }

end Function

end Calc

end StraightLine
