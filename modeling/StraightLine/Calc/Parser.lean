import StraightLine.Parser

/-!
# Calc.Parser — reading Calc functions within a depth limit

    E ::= T {('+'|'-') T}      T ::= A {('*'|'/') A}      A ::= ident | '(' E ')'

Operators of one level associate to the left. Two limits hold while an expression is read: no
operator tree may become higher than the limit, and no more parentheses than the limit may be open
at once, since redundant parentheses add no height. The second limit is what the recursion runs
on.

* `Calc.Parser.expression` — the reader for `E`;
* `Calc.parse` — a whole function.
-/

namespace StraightLine

namespace Calc

namespace Parser

open StraightLine.Parser

/-- What the readers of one function know: its name, the depth limit and the length of its source.
-/
structure Bounds where
  function : String
  limit : Nat
  stop : Nat

/-- An expression with its operator depth. -/
structure Measured where
  expr : Expr
  depth : Nat
  deriving DecidableEq, Repr

namespace Bounds

def tooDeep (b : Bounds) (depth : Nat) (input : List Lexeme) : CompileError :=
  .malformed b.function (.tooDeepAt depth (offsetOf b.stop input) b.limit)

/-- Joins two operands, unless the tree becomes too high; `input` is what follows the right one. -/
def join (b : Bounds) (op : Operator) (left right : Measured) (input : List Lexeme) :
    Except CompileError Measured :=
  let depth := max left.depth right.depth + 1
  if b.limit < depth then .error (b.tooDeep depth input)
  else .ok ⟨.binary op left.expr right.expr, depth⟩

end Bounds

/-- Continues a chain of operands with the operators of one precedence, as long as one follows. -/
def chainFrom (b : Bounds) (operand : Reader Measured) (level : Nat) {input : List Lexeme}
    (left : Consumed Measured input) : Except CompileError (Consumed Measured input) :=
  match hrest : left.rest with
  | [] => .ok left
  | l :: rest =>
      match l.token with
      | .op sign =>
          match Operator.ofSign? sign with
          | none => .error (.unsupportedOperator (String.singleton sign))
          | some op =>
              -- an operator of the other level belongs to the chain around this one
              if op.precedence = level then
                match operand rest with
                | .error e => .error e
                | .ok right =>
                    match b.join op left.value right.value right.rest with
                    | .error e => .error e
                    | .ok joined =>
                        chainFrom b operand level
                          ⟨joined, right.rest, by
                            have := left.shorter
                            have := right.shorter
                            simp only [hrest, List.length_cons] at *
                            omega⟩
              else .ok left
      | _ => .ok left
  termination_by left.rest.length
  decreasing_by
    have := right.shorter
    simp only [hrest, List.length_cons]
    omega

/-- One operand, then as many operators of the level with their right operands as follow. -/
def chain (b : Bounds) (operand : Reader Measured) (level : Nat) : Reader Measured := fun input =>
  match operand input with
  | .error e => .error e
  | .ok first => chainFrom b operand level first

/-- An expression over the given atoms. -/
def expressionOf (b : Bounds) (atom : Reader Measured) : Reader Measured :=
  chain b (chain b atom 2) 1

/-- A variable or an expression in parentheses; `room` is how many parentheses may still be
opened. -/
def atom (b : Bounds) : (room : Nat) → Reader Measured
  | _, [] => .error (missing b.stop .expression [])
  | room, l :: rest =>
      match l.token with
      | .ident name => .ok (.head ⟨.var name, 0⟩ l rest)
      | .leftParen =>
          match room with
          -- as many parentheses as the limit are open already
          | 0 => .error (b.tooDeep (b.limit + 1) (l :: rest))
          | room + 1 => do
              let inner ← expressionOf b (atom b room) rest
              let closing ← expect b.stop .rightParen inner.rest
              return closing.widen inner.value (by
                have := inner.shorter
                simp only [List.length_cons]
                omega)
      | _ => .error (missing b.stop .expression (l :: rest))

/-- An expression outside all parentheses. -/
def measured (b : Bounds) : Reader Measured :=
  expressionOf b (atom b b.limit)

def expression (b : Bounds) : Reader Expr := fun input => do
  let read ← measured b input
  return { read with value := read.value.expr }

/-- A whole function within the depth limit. -/
def function (limit stop : Nat) (input : List Lexeme) : Except CompileError Function :=
  program stop (fun name => expression ⟨name, limit, stop⟩)
    (fun name => expression ⟨name, limit, stop⟩) input

end Parser

/-- Largest operator depth of one expression, unless a caller sets another limit. -/
def defaultMaxDepth : Nat := 256

def parse (maxDepth : Nat) (source : String) : Except CompileError Function :=
  StraightLine.Parser.parse (Parser.function maxDepth) source

end Calc

end StraightLine
