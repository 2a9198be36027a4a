import StraightLine.Proofs.Flow
import StraightLine.Proofs.Validation

/-!
# Sensitivity — the question finds every exchanged statement that matters

The compiled code of a function unfolds to the tree of the function itself. With one right-hand side
exchanged it unfolds to another tree exactly if the statement has another tree and its value flows
into the result, and then the question about the pair has a model.

* `Query.TellsApart` — the answer is a model that gives different values to the results;
* `Query.exists_build_withStatement` — the question can still be asked;
* `Query.unsat_withStatement_iff` — when the exchange goes unnoticed;
* `Compiler.detects_exchange` — exchanged statements of compiled code.
-/

namespace StraightLine

open SingleAssignment FreshNames

namespace Tac.Function

variable {t : Function} {i : Nat} {s : Assignment Value} {v : Value}

theorem toCalc_withStatement (t : Function) (i : Nat) (s : Assignment Value) :
    toCalc (t.withStatement i s) = t.toCalc.withStatement i (s.map Value.expr) := by
  simp [toCalc, Program.map, Program.withStatement, List.map_set]

theorem getElem?_toCalc (hs : t.body[i]? = some s) :
    t.toCalc.body[i]? = some (s.map Value.expr) := by
  simp [toCalc, Program.map, hs]

theorem targets_take_toCalc (t : Function) (i : Nat) :
    (t.toCalc.body.take i).map Assignment.target = (t.body.take i).map Assignment.target := by
  simp [toCalc, Program.map, ← List.map_take, Assignment.map]

/-- Names that are bound where the statement stands are names of the function already. -/
theorem mem_names_withStatement (hs : t.body[i]? = some s)
    (hv : ∀ x ∈ v.reads, x ∈ t.params ∨ x ∈ (t.body.take i).map Assignment.target) {x : String}
    (hx : x ∈ names (t.withStatement i { s with value := v })) : x ∈ t.names := by
  have hmem : s ∈ t.body := List.mem_of_getElem? hs
  simp only [names, Program.withStatement, List.mem_append, List.mem_flatMap] at hx
  rcases hx with (hx | ⟨s', hs', hx⟩) | hx
  · exact mem_names (List.mem_append_left _ hx)
  · rcases List.mem_or_eq_of_mem_set hs' with hs' | rfl
    · exact List.mem_append_left _ (List.mem_append_right _ (List.mem_flatMap.2 ⟨s', hs', hx⟩))
    · -- the exchanged statement keeps its target and reads what is bound before it
      rcases List.mem_cons.1 hx with rfl | hx
      · exact mem_names (List.mem_append_right _ (List.mem_map.2 ⟨s, hmem, rfl⟩))
      · refine mem_names (List.mem_append.2 ((hv x hx).imp_right fun htarget => ?_))
        exact List.map_subset _ (List.take_subset i t.body) htarget
  · exact List.mem_append_right _ hx

end Tac.Function

namespace Query

/-- The answer is a model, and the returned names have different values in it. -/
def TellsApart (q : Query) : Prop :=
  ∃ m, Congruence.decide q.script.assertions.toList = .sat m ∧
    ∃ a b, m.get? q.sourceReturn = some a ∧ m.get? q.targetReturn = some b ∧ a ≠ b

section Exchange

variable {f : Calc.Function} {t : Tac.Function} {q : Query} {i : Nat} {s : Assignment Tac.Value}
  {v : Tac.Value}

/-- A question that is not refuted tells the functions apart. -/
theorem tellsApart_of_ne_unsat (h : build f t = .ok q)
    (hne : Congruence.decide q.script.assertions.toList ≠ .unsat) : q.TellsApart := by
  rcases build_spec h with ⟨gs, gt, _, _, _, _, _, hassertions, _⟩
  rw [hassertions] at hne
  rcases exists_model_of_decide_goalOf hne with ⟨m, hm, hreturns, _⟩
  rw [TellsApart, hassertions]
  exact ⟨m, hm, hreturns⟩

/-- The exchange brings no names in, so nothing keeps the question from being asked. -/
theorem exists_build_withStatement (h : build f t = .ok q) (hs : t.body[i]? = some s)
    (hv : ∀ x ∈ v.reads, x ∈ t.params ∨ x ∈ (t.body.take i).map Assignment.target)
    (hdef : (Tac.Function.toCalc (t.withStatement i { s with value := v })).Defined) :
    ∃ q', build f (t.withStatement i { s with value := v }) = .ok q' := by
  rcases build_eq_ok.1 h with ⟨hparams, hdisjoint, gs, gt, _, hgs, hgt, _⟩
  rcases except_bind_eq_ok.1 hdisjoint with ⟨_, hcalc, htac⟩
  have hsource := (Calc.Function.converts_toSsa hgs).source_defined
  have htargets : (t.withStatement i { s with value := v }).targets = t.targets :=
    Program.targets_withStatement hs rfl
  -- parameters and targets stay, so only the first check sees another list of names
  refine exists_build hsource hdef hparams ?_ (Calc.Function.toSsa_eq_ok.1 hgs).1 ?_
  · refine except_bind_eq_ok.2 ⟨(), ?_, htac⟩
    rw [checkUnowned_ofStem] at hcalc ⊢
    exact fun x hx => hcalc x (Tac.Function.mem_names_withStatement hs hv hx)
  · rw [htargets]
    exact (Tac.Function.toSsa_eq_ok.1 hgt).1

/-- If the functions unfold to one tree, an exchanged statement goes unnoticed exactly if its value
does not flow into the result or has the same tree as before. -/
theorem unsat_withStatement_iff (h : build f t = .ok q) (hsame : t.unfolded = f.unfolded)
    (hs : t.body[i]? = some s)
    (hv : ∀ x ∈ v.reads, x ∈ t.params ∨ x ∈ (t.body.take i).map Assignment.target) :
    ∃ q' old new, build f (t.withStatement i { s with value := v }) = .ok q' ∧
      t.toCalc.unfoldedAt i s.value.expr = .ok old ∧ t.toCalc.unfoldedAt i v.expr = .ok new ∧
      (Congruence.decide q'.script.assertions.toList = .unsat ↔
        ¬ t.toCalc.FlowsToResult i ∨ old = new) := by
  rcases build_eq_ok.1 h with ⟨_, _, _, gt, _, _, hgt, _⟩
  have hdef := (Tac.Function.converts_toSsa hgt).source_defined
  have hreads : ∀ x ∈ v.expr.reads,
      x ∈ t.toCalc.params ∨ x ∈ (t.toCalc.body.take i).map Assignment.target := by
    rw [v.reads_expr, t.targets_take_toCalc]
    exact hv
  rcases Calc.Function.unfolded_withStatement hdef (Tac.Function.getElem?_toCalc hs) hreads with
    ⟨u, u', old, new, hu, hu', hold, hnew, hiff⟩
  have hexchanged : Calc.Function.unfolded
      (Tac.Function.toCalc (t.withStatement i { s with value := v })) = .ok u' := by
    rw [Tac.Function.toCalc_withStatement]
    exact hu'
  rcases exists_build_withStatement h hs hv (Calc.Function.defined_of_evalWith_ok hexchanged) with
    ⟨q', hq'⟩
  refine ⟨q', old, new, hq', hold, hnew, ?_⟩
  -- the source unfolds to the tree of the code before the exchange
  rcases unsat_iff_unfolded hq' with ⟨us, ut, hus, hut, hunsat⟩
  cases hus.symm.trans (hsame.symm.trans hu)
  cases hut.symm.trans hexchanged
  exact hunsat.trans hiff

end Exchange

end Query

namespace Compiler

open Query

/-- The right-hand side of one statement of compiled code is exchanged for any other that reads
parameters and targets before it. The question about the source and this code is refuted exactly if
the value of the statement does not flow into the result, or both right-hand sides stand for one tree
over the parameters; otherwise its model has different values for the results. Another operator
makes another tree, so it is found wherever the value of the statement is used. -/
theorem detects_exchange (limits : Limits) (session : List Request) (f : Calc.Function)
    (t : Tac.Function) (q : Query) (hdigest : Distinguishes limits session f)
    (ht : (((ofLimits limits).after session).compile f).1 = .ok t) (hq : build f t = .ok q)
    (i : Nat) (s : Assignment Tac.Value) (hs : t.body[i]? = some s) (v : Tac.Value)
    (hv : ∀ x ∈ v.reads, x ∈ t.params ∨ x ∈ (t.body.take i).map Assignment.target) :
    ∃ q' old new, build f (t.withStatement i { s with value := v }) = .ok q' ∧
      t.toCalc.unfoldedAt i s.value.expr = .ok old ∧ t.toCalc.unfoldedAt i v.expr = .ok new ∧
      (Congruence.decide q'.script.assertions.toList = .unsat ↔
        ¬ t.toCalc.FlowsToResult i ∨ old = new) ∧
      (t.toCalc.FlowsToResult i → old ≠ new → q'.TellsApart) ∧
      (∀ op op' l r, s.value = .binary op l r → v = .binary op' l r → op ≠ op' →
        t.toCalc.FlowsToResult i → q'.TellsApart) := by
  rcases (compile_after_eq_ok hdigest).1 ht with ⟨hcheck, hlower⟩
  have hsame := Calc.Function.unfolded_lower (Limits.defined_of_check hcheck).1 hlower
  rcases unsat_withStatement_iff hq hsame hs hv with ⟨q', old, new, hq', hold, hnew, hunsat⟩
  have happart : t.toCalc.FlowsToResult i → old ≠ new → q'.TellsApart := by
    intro hflows hne
    exact tellsApart_of_ne_unsat hq' (mt hunsat.1 (not_or.2 ⟨not_not.2 hflows, hne⟩))
  refine ⟨q', old, new, hq', hold, hnew, hunsat, happart, ?_⟩
  rintro op op' l r hvalue rfl hop hflows
  refine happart hflows ?_
  -- the trees of the two sides have different operators at their roots
  rw [hvalue] at hold
  rcases Calc.Function.exists_of_unfoldedAt_binary hold with ⟨_, _, rfl⟩
  rcases Calc.Function.exists_of_unfoldedAt_binary hnew with ⟨_, _, rfl⟩
  intro heq
  injection heq with heq
  exact hop heq

/-- In the code of the sample, the second sum becomes a difference. -/
theorem detects_exchange_sample : ∃ q,
    build Calc.sample ((Calc.sample.lowered "z").withStatement 1
      ⟨"_tmp_f_1", .binary .sub "s2" "t2"⟩) = .ok q ∧ q.TellsApart := by
  have hbuild : ∃ q, build Calc.sample (Calc.sample.lowered "z") = .ok q :=
    exists_build (by decide) (by decide) rfl (by decide) (by decide) (by decide)
  have hflows : (Calc.sample.lowered "z").toCalc.FlowsToResult 1 := by decide
  rcases hbuild with ⟨q, hq⟩
  rcases detects_exchange {} [.function Calc.sample] Calc.sample _ q (distinguishes_same _ _)
    compile_sample_twice hq 1 ⟨"_tmp_f_1", .binary .add "s2" "t2"⟩ (by decide)
    (.binary .sub "s2" "t2") (by decide) with ⟨q', _, _, hq', _, _, _, _, hoperator⟩
  exact ⟨q', hq', hoperator .add .sub "s2" "t2" rfl rfl (by decide) hflows⟩

end Compiler

end StraightLine
