import StraightLine.Proofs.Compiler
import StraightLine.Proofs.Query
import StraightLine.Validator

/-!
# Validation — compiled code is always found correct

A compiled function unfolds to the same tree as its source, so the question about the two is refuted
whenever it can be asked. It cannot be asked only about functions that use a name of the shape that
one of the conversions generates.

* `Calc.Function.Clashes` — such a name among the parameters and targets;
* `Calc.Function.unfolded_lower` — lowering keeps the unfolded function;
* `Query.build_lowered_error`, `Query.not_clashes_of_build_lowered` — when the question can be
  asked;
* `Compiler.validates_compile` — the verdict on compiled code.
-/

namespace StraightLine

open SingleAssignment FreshNames

namespace Calc.Function

/-- `x` is a parameter or a target, and has the shape of the names of a conversion over `stem`. -/
structure Clashes (f : Function) (x stem : String) : Prop where
  source : x ∈ f.params ++ f.targets
  overStem : stem = calcStem f.name ∨ stem = tacStem f.name
  numbered : Numbered stem x

theorem unfolded_lower {f : Function} {t : Tac.Function} (hdef : f.Defined)
    (h : f.lower = .ok t) : t.unfolded = f.unfolded := by
  have hparams : t.params = f.params := by
    rcases lower_eq_ok.1 h with ⟨returned, _, _, rfl⟩
    rfl
  calc
    t.unfolded
        = t.evalWith freeArithmetic (f.params.map Expr.var) := by
          rw [Tac.Function.unfolded, hparams]
    _ = f.unfolded := evalWith_lower hdef h _

theorem defined_lower {f : Function} {t : Tac.Function} (hdef : f.Defined) (h : f.lower = .ok t) :
    t.toCalc.Defined := by
  rcases exists_unfolded hdef with ⟨u, hu⟩
  rw [← unfolded_lower hdef h] at hu
  exact defined_of_evalWith_ok hu

theorem mem_names {f : Function} (hdef : f.Defined) {x : String} (hx : x ∈ f.names) :
    x ∈ f.params ++ f.targets := by
  simp only [names, List.mem_append, List.mem_flatMap] at hx
  rcases hx with (hx | ⟨s, hs, hx⟩) | hx
  · exact List.mem_append_left _ hx
  · rcases List.mem_cons.1 hx with rfl | hx
    · exact List.mem_append_right _ (List.mem_map_of_mem hs)
    · exact List.mem_append.2 (hdef.1.mem_reads hs hx)
  · rcases List.mem_append.1 (hdef.2 x hx) with hmem | hmem
    · exact List.mem_append_right _ (List.mem_reverse.1 hmem)
    · exact List.mem_append_left _ hmem

theorem mem_names_of_bound {f : Function} {x : String} (hx : x ∈ f.params ++ f.targets) :
    x ∈ f.names := by
  simp only [names, List.mem_append, List.mem_flatMap]
  rcases List.mem_append.1 hx with hx | hx
  · exact Or.inl (Or.inl hx)
  · rcases List.mem_map.1 hx with ⟨s, hs, rfl⟩
    exact Or.inl (Or.inr ⟨s, hs, List.mem_cons_self⟩)

/-- A name of lowered code that looks generated by a conversion is one of the source. -/
theorem mem_of_numbered_lowered {f : Function} {returned stem x : String} (hdef : f.Defined)
    (hresult : f.result = .var returned) (hx : x ∈ (f.lowered returned).names)
    (hstem : Lowering.stem f.name ≠ stem) (hnumbered : Numbered stem x) :
    x ∈ f.params ++ f.targets := by
  rcases mem_names_lowered hdef hresult hx with hmem | ⟨k, rfl⟩
  · exact hmem
  · exact absurd (numbered_nameAt.1 hnumbered).symm hstem

end Calc.Function

theorem Tac.Function.mem_names {f : Tac.Function} {x : String} (hx : x ∈ f.params ++ f.targets) :
    x ∈ f.names := by
  rw [← f.targets_toCalc] at hx
  rw [← f.names_toCalc]
  exact Calc.Function.mem_names_of_bound hx

/-! ## The question -/

namespace Query

variable {f : Calc.Function} {t : Tac.Function}

/-- Whatever keeps the question from being asked is a reserved name of the source. -/
theorem build_lowered_error (hdef : f.Defined) (h : f.lower = .ok t) {e : CompileError}
    (he : build f t = .error e) : ∃ x stem, f.Clashes x stem ∧ e = .reservedName x stem := by
  have hdeft := Calc.Function.defined_lower hdef h
  rcases Calc.Function.lower_eq_ok.1 h with ⟨returned, hresult, _, rfl⟩
  have htarget : ∀ {x stem}, x ∈ (f.lowered returned).names →
      stem = calcStem f.name ∨ stem = tacStem f.name → Numbered stem x → f.Clashes x stem := by
    intro x stem hx hstem hnumbered
    refine ⟨Calc.Function.mem_of_numbered_lowered hdef hresult hx ?_ hnumbered, hstem, hnumbered⟩
    rcases hstem with rfl | rfl
    · exact Lowering.stem_ne_calcStem _ _
    · exact Lowering.stem_ne_tacStem _ _
  -- the steps of the question in turn: both name checks, both conversions, and the result
  rw [build_of_params rfl] at he
  rcases except_bind_eq_error.1 he with hdisjoint | ⟨_, _, he⟩
  · rcases except_bind_eq_error.1 hdisjoint with hcalc | ⟨_, _, htac⟩
    · rcases checkUnowned_error hcalc with ⟨x, hx, hnumbered, rfl⟩
      exact ⟨x, _, htarget hx (Or.inl rfl) hnumbered, rfl⟩
    · rcases checkUnowned_error htac with ⟨x, hx, hnumbered, rfl⟩
      exact ⟨x, _, ⟨Calc.Function.mem_names hdef hx, Or.inr rfl, hnumbered⟩, rfl⟩
  rcases except_bind_eq_error.1 he with hsource | ⟨gs, hgs, he⟩
  · rcases Calc.Function.toSsa_error hdef hsource with ⟨x, hx, hnumbered, rfl⟩
    exact ⟨x, _, ⟨hx, Or.inl rfl, hnumbered⟩, rfl⟩
  rcases except_bind_eq_error.1 he with htac | ⟨gt, _, he⟩
  · rcases Tac.Function.toSsa_error hdeft htac with ⟨x, hx, hnumbered, rfl⟩
    exact ⟨x, _, htarget (Tac.Function.mem_names hx) (Or.inr rfl) hnumbered, rfl⟩
  -- a converted source returns a name, so the last step does not fail
  rcases (Calc.Function.converts_toSsa hgs).result with ⟨r, hr, _⟩
  rw [Calc.Function.returnVar?, hr] at he
  cases he

/-- If the question can be asked, the source has no reserved name. -/
theorem not_clashes_of_build_lowered (h : f.lower = .ok t) {q : Query} (hq : build f t = .ok q)
    (x stem : String) : ¬ f.Clashes x stem := by
  rcases build_eq_ok.1 hq with ⟨_, _, gs, gt, _, hgs, hgt, _⟩
  rcases Calc.Function.lower_eq_ok.1 h with ⟨returned, _, _, rfl⟩
  have hsource := (Calc.Function.converts_toSsa hgs).unowned
  have htarget := (Tac.Function.converts_toSsa hgt).unowned
  rw [Tac.Function.targets_toCalc] at htarget
  rintro ⟨hx, rfl | rfl, hnumbered⟩
  · exact hsource x hx hnumbered
  · refine htarget x ?_ hnumbered
    rcases List.mem_append.1 hx with hx | hx
    · exact List.mem_append_left _ hx
    · exact List.mem_append_right _ (f.lowered_targets returned hx)

/-- Compiled code is found correct. -/
theorem decide_build_lowered (hdef : f.Defined) (h : f.lower = .ok t) {q : Query}
    (hq : build f t = .ok q) : Congruence.decide q.script.assertions.toList = .unsat := by
  exact (unsat_iff_unfolded_eq hq).2 (Calc.Function.unfolded_lower hdef h).symm

end Query

/-! ## Compiled code -/

namespace Compiler

/-- The question about a function and what a compiler makes of it fails exactly if a parameter or a
target has the shape `_calc_N_k` or `_tac_N_k`, where `N` is the name of the function, and then the
error says which name that is. In every other case the verdict is an agreement. -/
theorem validates_compile (limits : Limits) (session : List Request) (f : Calc.Function)
    (t : Tac.Function) (hdigest : Distinguishes limits session f)
    (ht : (((ofLimits limits).after session).compile f).1 = .ok t) :
    ((∃ e, Query.build f t = .error e) ↔ ∃ x ∈ f.params ++ f.targets,
      Numbered ("_calc_" ++ f.name) x ∨ Numbered ("_tac_" ++ f.name) x) ∧
    (∀ e, Query.build f t = .error e → ∃ x stem, f.Clashes x stem ∧ e = .reservedName x stem) ∧
    ∀ q, Query.build f t = .ok q → Congruence.decide q.script.assertions.toList = .unsat ∧
      Verdict.ofResult (Congruence.decide q.script.assertions.toList) = .pass := by
  rcases (compile_after_eq_ok hdigest).1 ht with ⟨hcheck, hlower⟩
  have hdefined := (Limits.defined_of_check hcheck).1
  refine ⟨⟨?_, ?_⟩, fun e he => Query.build_lowered_error hdefined hlower he, ?_⟩
  · rintro ⟨e, he⟩
    rcases Query.build_lowered_error hdefined hlower he with ⟨x, _, ⟨hx, rfl | rfl, hnumbered⟩, _⟩
    · exact ⟨x, hx, Or.inl hnumbered⟩
    · exact ⟨x, hx, Or.inr hnumbered⟩
  · rintro ⟨x, hx, hnumbered⟩
    have hclashes : ∃ stem, f.Clashes x stem := by
      rcases hnumbered with hnumbered | hnumbered
      · exact ⟨_, hx, Or.inl rfl, hnumbered⟩
      · exact ⟨_, hx, Or.inr rfl, hnumbered⟩
    rcases hclashes with ⟨stem, hclashes⟩
    cases hq : Query.build f t with
    | error e =>
        exact ⟨e, rfl⟩
    | ok q =>
        exact absurd hclashes (Query.not_clashes_of_build_lowered hlower hq x stem)
  · intro q hq
    have hunsat := Query.decide_build_lowered hdefined hlower hq
    exact ⟨hunsat, by rw [hunsat]; rfl⟩

/-- The question about the sample and its code can be asked, and the verdict is an agreement. -/
theorem validates_compile_sample : ∃ q, Query.build Calc.sample (Calc.sample.lowered "z") = .ok q ∧
    Verdict.ofResult (Congruence.decide q.script.assertions.toList) = .pass := by
  have h := validates_compile {} [.function Calc.sample] Calc.sample _ (distinguishes_same _ _)
    compile_sample_twice
  have hnames : ∀ x ∈ Calc.sample.params ++ Calc.sample.targets,
      ¬ (Numbered "_calc_f" x ∨ Numbered "_tac_f" x) := by
    have hcalc : (FreshNames.ofStem "_calc_f").checkUnowned
        (Calc.sample.params ++ Calc.sample.targets) = .ok () := by decide
    have htac : (FreshNames.ofStem "_tac_f").checkUnowned
        (Calc.sample.params ++ Calc.sample.targets) = .ok () := by decide
    rintro x hx (hnumbered | hnumbered)
    · exact checkUnowned_ofStem.1 hcalc x hx hnumbered
    · exact checkUnowned_ofStem.1 htac x hx hnumbered
  -- an error would be about a reserved name, and the sample has none
  cases hq : Query.build Calc.sample (Calc.sample.lowered "z") with
  | error e =>
      rcases h.1.1 ⟨e, hq⟩ with ⟨x, hx, hnumbered⟩
      exact absurd hnumbered (hnames x hx)
  | ok q =>
      exact ⟨q, rfl, (h.2.2 q hq).2⟩

end Compiler

end StraightLine
