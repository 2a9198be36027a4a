import Mathlib.Tactic
import StraightLine.Proofs.Congruence.Decision
import StraightLine.Proofs.Encoding
import StraightLine.Proofs.SingleAssignment
import StraightLine.Query

/-!
# Query — what the answer to a question says about two functions

The equations of both functions have a solution for all values of the parameters, and every
solution gives to the returned names what the unfolded functions evaluate to. Over trees, where
nothing is equal that is not the same, the question therefore compares the unfolded functions.

* `Query.goalOf`, `Query.not_disjunctive_goalOf` — the one assertion;
* `Query.decide_goalOf_eq_unsat_iff` — it is refuted if every solution agrees on the results;
* `Query.solution_eq`, `Query.solutions_agree_iff` — solutions and unfolded functions;
* `Query.unsat_iff_unfolded`, `Query.decide_build` — the answer for a pair of functions.
-/

namespace StraightLine

open Smt SingleAssignment FreshNames

namespace Query

/-! ## The assertion -/

section Goal

variable {body : List (Assignment Expr)} {r r' : String}

/-- The assertion over the equations of a body. -/
def goalOf (body : List (Assignment Expr)) (r r' : String) : Formula :=
  goal (body.map Encoding.equationOf) (Encoding.constantOf r) (Encoding.constantOf r')

theorem wellSorted_goalOf : (goalOf body r r').WellSorted Encoding.signature := by
  refine ⟨?_, rfl, rfl, rfl⟩
  change Formula.AllWellSorted _ _
  rw [Formula.allWellSorted_iff]
  intro f hf
  rcases List.mem_map.1 hf with ⟨s, _, rfl⟩
  exact ⟨rfl, Encoding.wellSorted_termOf s.value, (Encoding.sort_termOf s.value).symm⟩

/-- The assertion is a conjunction of equations and one disequation. -/
theorem not_disjunctive_goalOf : ¬ Congruence.Disjunctive true (goalOf body r r') := by
  rintro ⟨⟩
  next h =>
    cases h with
    | antecedent h =>
        cases h with
        | conjunct hf h =>
            rcases List.mem_map.1 hf with ⟨s, _, rfl⟩
            cases h
    | consequent h =>
        cases h

/-- It holds where the equations hold and the returned names differ. -/
theorem holds_goalOf {I : Interpretation.{0}} : I.Holds (goalOf body r r') ↔
    (∀ s ∈ body, I.Holds (Encoding.equationOf s)) ∧
      I.value (.const (Encoding.constantOf r)) ≠ I.value (.const (Encoding.constantOf r')) := by
  simp only [goalOf, goal, Interpretation.Holds, Interpretation.holdsAll_iff, List.forall_mem_map,
    Classical.not_imp, ne_eq]

theorem constants_goalOf : (goalOf body r r').constants =
    (body.flatMap Encoding.namesOf ++ [r, r']).map Encoding.constantOf := by
  have hbody : ∀ body : List (Assignment Expr),
      Formula.constantsOf (body.map Encoding.equationOf) =
        (body.flatMap Encoding.namesOf).map Encoding.constantOf := by
    intro body
    induction body with
    | nil =>
        rfl
    | cons s rest ih =>
        simp [Formula.constantsOf, Encoding.constants_equationOf, ih]
  simp [goalOf, goal, Formula.constants, Term.constants, hbody]

/-- No interpretation satisfies the assertion exactly if all solutions of the equations agree on the
returned names. -/
theorem decide_goalOf_eq_unsat_iff : Congruence.decide [goalOf body r r'] = .unsat ↔
    ∀ {α : Type} (ops : Operator → α → α → α) (value : String → α),
      Solves ops value body → value r = value r' := by
  rw [Congruence.decide_eq_unsat_iff (by simpa using wellSorted_goalOf)
    (by simpa using not_disjunctive_goalOf)]
  simp only [List.mem_singleton, forall_eq, holds_goalOf, not_exists, not_and, not_not, ne_eq]
  constructor
  · -- values on one carrier are an interpretation in which all sorts have this carrier
    intro h α ops value hvalue
    have heq := h (Encoding.interpretationOf ops value) ?_
    · simpa [Interpretation.value, Encoding.constantOf] using heq
    · intro s hs
      exact Encoding.holds_equationOf.2 (hvalue s hs)
  · -- and the values of an interpretation, of any sort, are one carrier
    intro h I hI
    refine h (Encoding.operatorsOf I) (Encoding.valueOf I) ?_
    intro s hs
    rw [← Encoding.value_termOf]
    exact hI s hs

/-- An assertion that is not refuted has a model, with different entries for the returned names and
an entry for every constant that occurs. -/
theorem exists_model_of_decide_goalOf (h : Congruence.decide [goalOf body r r'] ≠ .unsat) :
    ∃ m, Congruence.decide [goalOf body r r'] = .sat m ∧
      (∃ v w, m.get? r = some v ∧ m.get? r' = some w ∧ v ≠ w) ∧
      ∀ c ∈ (goalOf body r r').constants, ∃ v, m.get? c.name = some v := by
  have hsorted : ∀ f ∈ [goalOf body r r'], f.WellSorted Encoding.signature := by
    simpa using wellSorted_goalOf
  have hconj : ¬ ∃ f ∈ [goalOf body r r'], Congruence.Disjunctive true f := by
    simpa using not_disjunctive_goalOf
  cases hdecide : Congruence.decide [goalOf body r r'] with
  | unsat =>
      exact absurd hdecide h
  | unknown reason =>
      exact absurd (Congruence.decide_eq_unknown_iff.1 ⟨reason, hdecide⟩) hconj
  | sat m =>
      rcases Congruence.exists_holds_of_decide_eq_sat hsorted hdecide with ⟨I, hI, hsep⟩
      simp only [Formula.constantsOf, List.append_nil] at hsep
      have hne := (holds_goalOf.1 (hI _ List.mem_cons_self)).2
      have hr : Encoding.constantOf r ∈ (goalOf body r r').constants := by
        simp [constants_goalOf]
      have hr' : Encoding.constantOf r' ∈ (goalOf body r r').constants := by
        simp [constants_goalOf]
      rcases hsep.entry _ hr with ⟨v, hv⟩
      rcases hsep.entry _ hr' with ⟨w, hw⟩
      refine ⟨m, rfl, ⟨v, w, hv, hw, ?_⟩, hsep.entry⟩
      rintro rfl
      exact hne ((hsep.eq_iff _ hr _ hr' rfl).1 (hv.trans hw.symm))

end Goal

/-! ## Solutions of both functions -/

section Solutions

variable {p q : String} {s t gs gt : Calc.Function} {r r' : String} {us ut : Expr}

/-- In every solution the result of a converted function is the value of the unfolded one. -/
theorem solution_eq {stem : String} {f g : Calc.Function} (h : Converts stem f g)
    (hr : g.result = .var r) {u : Expr} (hu : f.unfolded = .ok u) {α : Type}
    {ops : Operator → α → α → α} {value : String → α} (hvalue : Solves ops value g.body) :
    value r = u.valueIn ops value := by
  have hargs : g.params.map value = f.params.map value := by
    rw [h.params]
  have hrun : Except.ok (value r) = Except.ok (u.valueIn ops value) :=
    calc
      Except.ok (value r)
          = g.evalWith (totalArithmetic ops) (g.params.map value) :=
            (evalWith_of_solves h.ordered hr (h.result_mem hr) hvalue).symm
      _ = f.evalWith (totalArithmetic ops) (f.params.map value) := by
            rw [h.evalWith, hargs]
      _ = .ok (u.valueIn ops value) := Calc.Function.evalWith_total hu
  injection hrun

/-- Over trees, a solution that leaves the parameters alone contains the unfolded function. -/
theorem unfolded_eq {stem : String} {f g : Calc.Function} (h : Converts stem f g)
    (hr : g.result = .var r) {value : String → Expr} (hparams : ∀ p ∈ f.params, value p = .var p)
    (hvalue : Solves Expr.binary value g.body) : f.unfolded = .ok (value r) := by
  have hargs : g.params.map value = f.params.map Expr.var := by
    rw [h.params]
    exact List.map_congr_left hparams
  calc
    f.unfolded
        = g.evalWith freeArithmetic (f.params.map Expr.var) :=
          (h.evalWith freeArithmetic (f.params.map Expr.var)).symm
    _ = g.evalWith freeArithmetic (g.params.map value) := by
          rw [hargs]
    _ = .ok (value r) := evalWith_of_solves h.ordered hr (h.result_mem hr) hvalue

theorem exists_unfolded {stem : String} {f g : Calc.Function} (h : Converts stem f g) :
    ∃ u, f.unfolded = .ok u :=
  Calc.Function.exists_unfolded h.source_defined

/-- Names over different stems differ, so the converted bodies can be solved together. -/
theorem ordered_both (hs : Converts p s gs) (ht : Converts q t gt) (hpq : p ≠ q)
    (hparams : s.params = t.params) : Ordered s.params (gs.body ++ gt.body) := by
  have hgs := hs.ordered
  have hgt := ht.ordered
  rw [hs.params] at hgs
  rw [ht.params, ← hparams] at hgt
  refine hgs.append hgt ?_
  intro x hx hx'
  have hx : x ∈ gt.targets := hx
  have hx' : x ∈ gs.targets := hx'
  rw [ht.targets] at hx
  rw [hs.targets] at hx'
  -- a name that both assign would have both stems
  rcases List.mem_map.1 hx with ⟨i, _, rfl⟩
  rcases List.mem_map.1 hx' with ⟨j, _, hij⟩
  exact hpq (nameAt_inj.1 hij).1

/-- All solutions agree on the results exactly if both functions unfold to one tree. -/
theorem solutions_agree_iff (hs : Converts p s gs) (ht : Converts q t gt) (hpq : p ≠ q)
    (hparams : s.params = t.params) (hr : gs.result = .var r) (hr' : gt.result = .var r')
    (hus : s.unfolded = .ok us) (hut : t.unfolded = .ok ut) :
    (∀ {α : Type} (ops : Operator → α → α → α) (value : String → α),
      Solves ops value (gs.body ++ gt.body) → value r = value r') ↔ us = ut := by
  constructor
  · -- the trees themselves are a solution
    intro hagree
    rcases exists_solves Expr.binary (ordered_both hs ht hpq hparams) Expr.var with
      ⟨value, hvar, hvalue⟩
    rcases solves_append.1 hvalue with ⟨hsolves, hsolvet⟩
    have hleft := unfolded_eq hs hr hvar hsolves
    have hright := unfolded_eq ht hr' (hparams ▸ hvar) hsolvet
    rw [hus] at hleft
    rw [hut] at hright
    injection hleft with hleft
    injection hright with hright
    rw [hleft, hright]
    exact hagree _ value hvalue
  · rintro rfl α ops value hvalue
    rcases solves_append.1 hvalue with ⟨hsolves, hsolvet⟩
    rw [solution_eq hs hr hus hsolves, solution_eq ht hr' hut hsolvet]

end Solutions

/-! ## Building a question -/

/-- The names of a body and the returned ones, each where it is met first. -/
def namesMet (body : List (Assignment Expr)) (r r' : String) : List String :=
  Encoding.meetAll [] (body.flatMap Encoding.namesOf ++ [r, r'])

theorem mem_namesMet {body : List (Assignment Expr)} {r r' x : String} :
    x ∈ namesMet body r r' ↔ x ∈ body.flatMap Encoding.namesOf ++ [r, r'] := by
  simp [namesMet, Encoding.mem_meetAll]

/-- A question declares the names that are met, and asserts one formula. -/
theorem script_ofSsa (source : Calc.Function) (r : String) (target : Tac.Function) :
    (ofSsa source r target).script =
      Encoding.scriptOf (namesMet (source.body ++ target.toCalc.body) r target.result)
        [goalOf (source.body ++ target.toCalc.body) r target.result] := by
  rcases Encoding.assignments_spec source.body Encoding.declares_empty with ⟨hsource, hdeclares⟩
  rcases Encoding.assignments_spec target.toCalc.body hdeclares with ⟨htarget, hdeclares⟩
  rcases Encoding.constant_spec hdeclares r with ⟨hr, hdeclares⟩
  rcases Encoding.constant_spec hdeclares target.result with ⟨hr', hdeclares⟩
  have hscript := (Encoding.assert_spec
    (goalOf (source.body ++ target.toCalc.body) r target.result) hdeclares).script
  simp only [ofSsa, Encoding.tacBody, Encoding.calcBody, hsource, htarget, hr, hr',
    ← List.map_append]
  rw [namesMet, List.flatMap_append, Encoding.meetAll_append, Encoding.meetAll_append]
  exact hscript

theorem varName?_eq_some {e : Expr} {x : String} : e.varName? = some x ↔ e = .var x := by
  cases e <;> simp [Expr.varName?]

/-- The question about functions with the same parameters, step by step. -/
theorem build_of_params {source : Calc.Function} {target : Tac.Function}
    (h : source.params = target.params) :
    build source target =
      (do checkDisjoint source target
          let gs ← source.toSsa
          let gt ← target.toSsa
          match gs.returnVar? with
          | none => throw (.invalidReturnShape gs.result)
          | some r => return ofSsa gs r gt) :=
  if_neg (not_not.2 h)

theorem build_eq_ok {source : Calc.Function} {target : Tac.Function} {q : Query} :
    build source target = .ok q ↔
      source.params = target.params ∧ checkDisjoint source target = .ok () ∧
      ∃ gs gt r, source.toSsa = .ok gs ∧ target.toSsa = .ok gt ∧ gs.result = .var r ∧
        q = ofSsa gs r gt := by
  by_cases hparams : source.params = target.params
  · simp only [build_of_params hparams, hparams, true_and, except_bind_eq_ok]
    constructor
    · rintro ⟨⟨⟩, hdisjoint, gs, hgs, gt, hgt, hq⟩
      refine ⟨hdisjoint, gs, gt, ?_⟩
      cases hr : gs.returnVar? with
      | none =>
          rw [hr] at hq
          cases hq
      | some r =>
          rw [hr] at hq
          cases hq
          exact ⟨r, hgs, hgt, varName?_eq_some.1 hr, rfl⟩
    · rintro ⟨hdisjoint, gs, gt, r, hgs, hgt, hr, rfl⟩
      refine ⟨⟨⟩, hdisjoint, gs, hgs, gt, hgt, ?_⟩
      rw [Calc.Function.returnVar?, hr]
      rfl
  · simp [build, hparams, bind, Except.bind, throw, throwThe, MonadExceptOf.throw]

/-- There is a question about defined functions if none of their names looks generated. -/
theorem exists_build {source : Calc.Function} {target : Tac.Function} (hsource : source.Defined)
    (htarget : target.toCalc.Defined) (hparams : source.params = target.params)
    (hdisjoint : checkDisjoint source target = .ok ())
    (hcalc : (ofStem (calcStem source.name)).checkUnowned (source.params ++ source.targets) =
      .ok ())
    (htac : (ofStem (tacStem target.name)).checkUnowned (target.params ++ target.targets) =
      .ok ()) :
    ∃ q, build source target = .ok q := by
  rcases Calc.Function.exists_toSsa hsource hcalc with ⟨gs, hgs⟩
  rcases Tac.Function.exists_toSsa htarget htac with ⟨gt, hgt⟩
  rcases (Calc.Function.converts_toSsa hgs).result with ⟨r, hr, _⟩
  exact ⟨_, build_eq_ok.2 ⟨hparams, hdisjoint, gs, gt, r, hgs, hgt, hr, rfl⟩⟩

theorem exists_build_sample : ∃ q, build Calc.sample Tac.sample = .ok q :=
  exists_build (by decide) (by decide) rfl (by decide) (by decide) (by decide)

/-- The parts of a question: the converted functions, and the formula that is asserted of them. -/
theorem build_spec {source : Calc.Function} {target : Tac.Function} {q : Query}
    (h : build source target = .ok q) :
    ∃ gs gt, Converts (calcStem source.name) source gs ∧
      Converts (tacStem target.name) target.toCalc gt ∧ source.params = target.toCalc.params ∧
      gs.result = .var q.sourceReturn ∧ gt.result = .var q.targetReturn ∧
      q.script.assertions.toList =
        [goalOf (gs.body ++ gt.body) q.sourceReturn q.targetReturn] ∧
      ∀ c ∈ q.script.constants,
        c ∈ (goalOf (gs.body ++ gt.body) q.sourceReturn q.targetReturn).constants := by
  rcases build_eq_ok.1 h with ⟨hparams, _, gs, gt, r, hgs, hgt, hr, rfl⟩
  refine ⟨gs, gt.toCalc, Calc.Function.converts_toSsa hgs, Tac.Function.converts_toSsa hgt, hparams,
    hr, rfl, ?_⟩
  rw [script_ofSsa, constants_goalOf]
  refine ⟨rfl, ?_⟩
  intro c hc
  rcases List.mem_map.1 (Array.mem_toList_iff.2 hc) with ⟨x, hx, rfl⟩
  exact List.mem_map_of_mem (mem_namesMet.1 hx)

/-- The question is refuted exactly if both functions unfold to one tree. -/
theorem unsat_iff_unfolded {source : Calc.Function} {target : Tac.Function} {q : Query}
    (h : build source target = .ok q) :
    ∃ us ut, source.unfolded = .ok us ∧ target.toCalc.unfolded = .ok ut ∧
      (Congruence.decide q.script.assertions.toList = .unsat ↔ us = ut) := by
  rcases build_spec h with ⟨gs, gt, hs, ht, hparams, hr, hr', hassertions, _⟩
  rcases exists_unfolded hs with ⟨us, hus⟩
  rcases exists_unfolded ht with ⟨ut, hut⟩
  refine ⟨us, ut, hus, hut, ?_⟩
  rw [hassertions, decide_goalOf_eq_unsat_iff]
  exact solutions_agree_iff hs ht (calcStem_ne_tacStem _ _) hparams hr hr' hus hut

theorem unsat_iff_unfolded_eq {source : Calc.Function} {target : Tac.Function} {q : Query}
    (h : build source target = .ok q) :
    Congruence.decide q.script.assertions.toList = .unsat ↔
      source.unfolded = target.toCalc.unfolded := by
  rcases unsat_iff_unfolded h with ⟨us, ut, hus, hut, hiff⟩
  rw [hiff, hus, hut, Except.ok.injEq]

/-- The question for two functions is refuted exactly if they unfold to the same tree over the
parameters. Otherwise it has a model, in which the two results differ and every declared constant
has a value. -/
theorem decide_build {source : Calc.Function} {target : Tac.Function} {q : Query}
    (h : build source target = .ok q) :
    ∃ us ut, source.unfolded = .ok us ∧ target.unfolded = .ok ut ∧
      (Congruence.decide q.script.assertions.toList = .unsat ↔ us = ut) ∧
      (us ≠ ut → ∃ m, Congruence.decide q.script.assertions.toList = .sat m ∧
        (∃ v w, m.get? q.sourceReturn = some v ∧ m.get? q.targetReturn = some w ∧ v ≠ w) ∧
        ∀ c ∈ q.script.constants, ∃ v, m.get? c.name = some v) := by
  rcases build_spec h with ⟨gs, gt, hs, ht, hparams, hr, hr', hassertions, hconstants⟩
  rcases exists_unfolded hs with ⟨us, hus⟩
  rcases exists_unfolded ht with ⟨ut, hut⟩
  have hunsat : Congruence.decide q.script.assertions.toList = .unsat ↔ us = ut := by
    rw [hassertions, decide_goalOf_eq_unsat_iff]
    exact solutions_agree_iff hs ht (calcStem_ne_tacStem _ _) hparams hr hr' hus hut
  refine ⟨us, ut, hus, hut, hunsat, ?_⟩
  intro hne
  -- what is not refuted has a model, since the question is no disjunction
  have hne := mt hunsat.1 hne
  rw [hassertions] at hne
  rcases exists_model_of_decide_goalOf hne with ⟨m, hm, hreturns, hentries⟩
  rw [hassertions]
  exact ⟨m, hm, hreturns, fun c hc => hentries c (hconstants c hc)⟩

/-- A sum is not a difference. -/
theorem decide_build_sum_difference :
    let source : Calc.Function :=
      { name := "f", params := ["a", "b"], body := [],
        result := .binary .add (.var "a") (.var "b") }
    let target : Tac.Function :=
      { name := "f", params := ["a", "b"], body := [⟨"c", .binary .sub "a" "b"⟩], result := "c" }
    ∃ q m, build source target = .ok q ∧ Congruence.decide q.script.assertions.toList = .sat m ∧
      m.get? q.sourceReturn ≠ m.get? q.targetReturn := by
  intro source target
  have hbuild : ∃ q, build source target = .ok q :=
    exists_build (by decide) (by decide) rfl (by decide) (by decide) (by decide)
  rcases hbuild with ⟨q, hbuild⟩
  have hsource : source.unfolded = .ok (.binary .add (.var "a") (.var "b")) := by cbv
  have htarget : target.unfolded = .ok (.binary .sub (.var "a") (.var "b")) := by cbv
  rcases decide_build hbuild with ⟨us, ut, hus, hut, _, hsat⟩
  cases hsource.symm.trans hus
  cases htarget.symm.trans hut
  rcases hsat (by decide) with ⟨m, hm, ⟨v, w, hv, hw, hvw⟩, _⟩
  refine ⟨_, m, hbuild, hm, ?_⟩
  rw [hv, hw]
  simpa using hvw

end Query

end StraightLine
