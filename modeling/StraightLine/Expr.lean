import StraightLine.Operator

/-!
# Expressions — operator trees over named values

* `Expr.opCount`, `Expr.reads` — the operators and the variables of a tree;
* `Expr.height` — the longest path from the root to a variable, by recursion on the tree;
* `Expr.depth` — the same number, measured with an explicit list of pending subtrees;
* `Expr.text` — the written form, with the fewest parentheses that keep the tree.

A parenthesis is needed around an operand that binds more weakly than its parent, and around a right
operand that binds equally strongly, because operators of one precedence associate to the left.
-/

namespace StraightLine

inductive Expr where
  | var (name : String)
  | binary (op : Operator) (left right : Expr)
  deriving DecidableEq, Repr

namespace Expr

/-- Number of operator applications. -/
def opCount : Expr → Nat
  | var _ => 0
  | binary _ left right => left.opCount + right.opCount + 1

/-- The variables from left to right, with repeats. -/
def reads : Expr → List String
  | var name => [name]
  | binary _ left right => left.reads ++ right.reads

/-- The variable that the expression is, if it is no operation. -/
def varName? : Expr → Option String
  | var name => some name
  | binary .. => none

/-- Renames every variable, in reading order; the first one that has no new name decides the
error. -/
def rename {ε : Type} (name : String → Except ε String) : Expr → Except ε Expr
  | var x => return var (← name x)
  | binary op left right => return binary op (← left.rename name) (← right.rename name)

/-! ## Height -/

/-- Longest path from the root to a variable, counted in operators. -/
def height : Expr → Nat
  | var _ => 0
  | binary _ left right => max left.height right.height + 1

/-- Number of nodes of the tree. -/
def size : Expr → Nat
  | var _ => 1
  | binary _ left right => left.size + right.size + 1

/-- Number of nodes of the pending trees, the measure `depthFrom` goes down by. -/
def pendingSize : List (Expr × Nat) → Nat
  | [] => 0
  | (e, _) :: pending => e.size + pendingSize pending

/-- Deepest level among `deepest` and the variables of the pending trees, each of which stands at
the level written beside it. -/
def depthFrom (deepest : Nat) : List (Expr × Nat) → Nat
  | [] => deepest
  | (var _, level) :: pending => depthFrom (max deepest level) pending
  -- an operation has no level of its own; its variables lie below it
  | (binary _ left right, level) :: pending =>
      depthFrom deepest ((right, level + 1) :: (left, level + 1) :: pending)
  termination_by pending => pendingSize pending
  decreasing_by
    all_goals simp only [pendingSize, size]
    all_goals omega

/-- Height of the tree, measured without recursion on it, so that a tree of any height can be
measured before a recursive pass touches it. -/
def depth (e : Expr) : Nat :=
  depthFrom 0 [(e, 0)]

/-- Each pending tree contributes its level and its height. -/
theorem depthFrom_eq_foldl (deepest : Nat) (pending : List (Expr × Nat)) :
    depthFrom deepest pending = pending.foldl (fun m p => max m (p.2 + p.1.height)) deepest := by
  fun_induction depthFrom deepest pending with
  | case1 deepest =>
      rfl
  | case2 deepest name level pending ih =>
      simpa [height] using ih
  | case3 deepest op left right level pending ih =>
      rw [ih]
      simp only [List.foldl_cons, height]
      congr 1
      omega

theorem depth_eq_height (e : Expr) : e.depth = e.height := by
  simp [depth, depthFrom_eq_foldl]

/-! ## Written form -/

/-- Whether an operand has to stand in parentheses below `parent`. -/
def needsParens (parent : Operator) (onRight : Bool) : Expr → Bool
  | var _ => false
  | binary op .. =>
      op.precedence < parent.precedence || (onRight && op.precedence == parent.precedence)

/-- Puts parentheses around `text` where `needed`. -/
def enclose (needed : Bool) (text : String) : String :=
  if needed then "(" ++ text ++ ")" else text

/-- Operators stand between their operands without blanks. -/
def text : Expr → String
  | var name => name
  | binary op left right =>
      enclose (left.needsParens op false) left.text ++ op.symbol ++
        enclose (right.needsParens op true) right.text

end Expr

end StraightLine
