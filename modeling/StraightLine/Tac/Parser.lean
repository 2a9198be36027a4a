import StraightLine.Parser
import StraightLine.Tac

/-!
# Tac.Parser — reading three-address functions

A right-hand side is a name, or a name, an operator and another name.

* `Tac.Parser.value` — the reader for right-hand sides;
* `Tac.parse` — a whole function.
-/

namespace StraightLine

namespace Tac

namespace Parser

open StraightLine.Parser

/-- The operator that `l` is, if it is an operator sign at all. -/
def operatorOf? (l : Lexeme) : Except CompileError (Option Operator) :=
  match l.token with
  | .op sign =>
      match Operator.ofSign? sign with
      | some op => .ok (some op)
      | none => .error (.unsupportedOperator (String.singleton sign))
  | _ => .ok none

def value (stop : Nat) : Reader Value := fun input => do
  let left ← identifier stop input
  match hrest : left.rest with
  | [] => return { left with value := .copy left.value }
  | l :: rest =>
      match ← operatorOf? l with
      | none => return { left with value := .copy left.value }
      | some op =>
          let right ← identifier stop rest
          return right.widen (.binary op left.value right.value) (left.tail_shorter hrest)

/-- A whole function. -/
def function (stop : Nat) (input : List Lexeme) : Except CompileError Function :=
  program stop (fun _ => value stop) (fun _ => identifier stop) input

end Parser

def parse (source : String) : Except CompileError Function :=
  StraightLine.Parser.parse Parser.function source

end Tac

end StraightLine
