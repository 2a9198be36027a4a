import StraightLine.Proofs.Query

/-!
# Certificate — what an agreement says about runs over words

An agreement is found over trees, where every operation has a result. A run over words may fail
where the tree does not, since an operator may have no result, and it may fail in a statement whose
value is not used. Wherever the run has a value, though, it is the value of the unfolded tree over
the parameters as the run binds them, and functions that agree have one such tree.

* `Expr.HasValue` — a tree evaluates to a value;
* `Calc.Function.related_params` — a parameter names its argument in both kinds of run;
* `Calc.Function.evalWith_unfolded` — the value of a run is the value of the unfolded tree;
* `Query.evalWith_eq_of_unfolded` — functions that unfold to one tree;
* `Query.eval_eq_of_unsat` — if both functions have a value, the values are equal.
-/

namespace StraightLine

/-- The tree evaluates to `v` over the bound names. -/
def Expr.HasValue {α : Type} (arith : Arithmetic α) (env : Environment α) (v : α) (e : Expr) :
    Prop :=
  e.evalWith arith env = .ok v

/-- An operation on trees is evaluated by the operation on their values. -/
theorem Expr.simulates_hasValue {α : Type} (arith : Arithmetic α) (env : Environment α) :
    Arithmetic.Simulates (HasValue arith env) arith freeArithmetic := by
  intro op a b left right c hleft hright hc
  refine ⟨.binary op left right, rfl, ?_⟩
  rw [HasValue, evalWith_binary, hleft, hright]
  exact hc

namespace Calc.Function

variable {α : Type} {arith : Arithmetic α} {f : Function} {args : List α}

/-- A parameter that comes twice stands for its last argument in both kinds of run. -/
theorem related_params (arith : Arithmetic α) (f : Function) (args : List α) :
    Environment.Related (Expr.HasValue arith (Environment.bindAll ∅ (f.params.zip args)))
      (Environment.bindAll ∅ (f.params.zip args))
      (Environment.bindAll ∅ (f.params.zip (f.params.map Expr.var))) := by
  intro x v hx
  have hparam : x ∈ f.params := by
    rcases Environment.lookup_bindAll_ok ∅ hx with hmem | hempty
    · exact (List.of_mem_zip hmem).1
    · rw [Environment.lookup_empty] at hempty
      cases hempty
  exact ⟨.var x, Environment.lookup_bindAll_map x hparam, hx⟩

/-- Wherever a run has a value, the unfolded tree has it too. -/
theorem evalWith_unfolded {u : Expr} {v : α} (hu : f.unfolded = .ok u)
    (hv : f.evalWith arith args = .ok v) :
    u.HasValue arith (Environment.bindAll ∅ (f.params.zip args)) v := by
  have harith : Arithmetic.Simulates
      (Expr.HasValue arith (Environment.bindAll ∅ (f.params.zip args))) arith freeArithmetic :=
    Expr.simulates_hasValue arith _
  by_cases hlength : f.params.length = args.length
  · rw [evalWith_of_length hlength] at hv
    rcases except_bind_eq_ok.1 hv with ⟨out, hout, hresult⟩
    -- the run over trees follows the run over values, statement by statement
    rcases execute_related harith (related_params arith f args) hout with ⟨trees, htrees, hrel⟩
    rcases Expr.evalWith_related harith hrel hresult with ⟨tree, htree, hvalue⟩
    have hrun : f.unfolded = .ok tree := by
      rw [unfolded, evalWith_of_length (by simp), htrees]
      exact htree
    cases hu.symm.trans hrun
    exact hvalue
  · rw [evalWith_of_length_ne hlength] at hv
    cases hv

end Calc.Function

namespace Query

/-- Functions over the same parameters that unfold to one tree have the same value, if both have
one. -/
theorem evalWith_eq_of_unfolded {α : Type} {arith : Arithmetic α} {s t : Calc.Function}
    (hparams : s.params = t.params) {u : Expr} (hs : s.unfolded = .ok u) (ht : t.unfolded = .ok u)
    {args : List α} {v w : α} (hv : s.evalWith arith args = .ok v)
    (hw : t.evalWith arith args = .ok w) : v = w := by
  have hsource : u.evalWith arith (Environment.bindAll ∅ (s.params.zip args)) = .ok v :=
    Calc.Function.evalWith_unfolded hs hv
  have htarget : u.evalWith arith (Environment.bindAll ∅ (t.params.zip args)) = .ok w :=
    Calc.Function.evalWith_unfolded ht hw
  rw [hparams, htarget] at hsource
  injection hsource with heq
  exact heq.symm

/-- An agreement holds for runs over words: if both functions have a value on the same arguments,
the values are equal. Neither function has to be one that the compiler accepts. -/
theorem eval_eq_of_unsat (source : Calc.Function) (target : Tac.Function) (q : Query)
    (hq : build source target = .ok q)
    (hunsat : Congruence.decide q.script.assertions.toList = .unsat) (args : List Int64)
    (v w : Int64) (hv : source.eval args = .ok v) (hw : target.eval args = .ok w) : v = w := by
  rcases unsat_iff_unfolded hq with ⟨us, ut, hus, hut, hiff⟩
  have hparams : source.params = target.toCalc.params := (build_eq_ok.1 hq).1
  rw [hiff.1 hunsat] at hus
  exact evalWith_eq_of_unfolded hparams hus hut hv hw

/-- A parameter that comes twice and is assigned again, and a quotient that is not used. -/
theorem eval_eq_of_unsat_repeated :
    let source : Calc.Function :=
      { name := "f", params := ["a", "a", "b"],
        body := [⟨"a", .binary .div (.var "a") (.var "b")⟩],
        result := .binary .mul (.var "a") (.var "b") }
    let target : Tac.Function :=
      { name := "f", params := ["a", "a", "b"],
        body := [⟨"c", .binary .div "a" "b"⟩, ⟨"a", .binary .div "c" "a"⟩,
          ⟨"c", .binary .mul "c" "b"⟩],
        result := "c" }
    ∃ q v w, build source target = .ok q ∧
      Congruence.decide q.script.assertions.toList = .unsat ∧
      source.eval [0, 9, 2] = .ok v ∧ target.eval [0, 9, 2] = .ok w ∧ v = w := by
  intro source target
  have hexists : ∃ q, build source target = .ok q :=
    exists_build (by decide) (by decide) rfl (by decide) (by decide) (by decide)
  rcases hexists with ⟨q, hq⟩
  have hunfolded : source.unfolded = target.toCalc.unfolded := by cbv
  have hunsat := (unsat_iff_unfolded_eq hq).2 hunfolded
  have hv : source.eval [0, 9, 2] = .ok 8 := by cbv
  have hw : target.eval [0, 9, 2] = .ok 8 := by cbv
  exact ⟨q, 8, 8, hq, hunsat, hv, hw,
    eval_eq_of_unsat source target q hq hunsat [0, 9, 2] 8 8 hv hw⟩

end Query

end StraightLine
