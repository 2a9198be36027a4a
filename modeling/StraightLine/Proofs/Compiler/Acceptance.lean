import StraightLine.Proofs.Compiler

/-!
# Acceptance — which functions a compiler accepts

What is asked of a function is spread over two passes. The limits and the names are checked before
lowering; lowering asks for a returned variable and for names that no temporary can have. It looks
for such names among the reads as well, which excludes no further function, since a read name is a
parameter or a target.

* `Identifier.IsWord` — how an identifier is spelled;
* `Calc.defined_iff_take` — reads of bound names, place by place;
* `Calc.Function.exists_lower_iff` — which functions can be lowered;
* `Calc.Function.Acceptable` — everything that is asked of a function;
* `Compiler.exists_compile_iff` — a new compiler asks for that and nothing else.
-/

namespace StraightLine

open FreshNames

/-! ## Conditions on names -/

/-- A letter or an underscore, and then letters, digits and underscores, all of them ASCII. -/
def Identifier.IsWord (name : String) : Prop :=
  ∃ c rest, name.toList = c :: rest ∧ (c.isAlpha = true ∨ c = '_') ∧
    ∀ d ∈ rest, d.isAlphanum = true ∨ d = '_'

theorem isIdentifier_iff {name : String} : isIdentifier name = true ↔ Identifier.IsWord name := by
  unfold isIdentifier Identifier.IsWord
  cases name.toList with
  | nil =>
      simp
  | cons c rest =>
      simp [Identifier.opens, Identifier.continues]

namespace Calc

/-- Every read is bound before the body, or is a target of an earlier place. -/
theorem defined_iff_take {body : List (Assignment Expr)} {bound : List String} :
    Defined bound body ↔ ∀ (k : Nat) (s : Assignment Expr), body[k]? = some s →
      ∀ x ∈ s.value.reads, x ∈ bound ∨ x ∈ (body.map Assignment.target).take k := by
  induction body generalizing bound with
  | nil =>
      simp [Defined]
  | cons first rest ih =>
      rw [Defined, ih]
      constructor
      · rintro ⟨hfirst, hrest⟩ k s hs x hx
        cases k with
        | zero =>
            cases hs
            exact Or.inl (hfirst x hx)
        | succ k =>
            -- the first target is bound for the rest, and the first of the earlier targets
            rcases hrest k s hs x hx with hbound | htake
            · rcases List.mem_cons.1 hbound with rfl | hbound
              · exact Or.inr List.mem_cons_self
              · exact Or.inl hbound
            · exact Or.inr (List.mem_cons_of_mem _ htake)
      · intro h
        refine ⟨fun x hx => (h 0 first rfl x hx).resolve_right List.not_mem_nil, ?_⟩
        intro k s hs x hx
        rcases h (k + 1) s hs x hx with hbound | htake
        · exact Or.inl (List.mem_cons_of_mem _ hbound)
        · rcases List.mem_cons.1 htake with rfl | htake
          · exact Or.inl List.mem_cons_self
          · exact Or.inr htake

namespace Function

/-- A function over bound names can be lowered if it returns a variable and no parameter and no
target looks like a temporary. -/
theorem exists_lower_iff {f : Function} (hdef : f.Defined) :
    (∃ t, f.lower = .ok t) ↔ (∃ returned, f.result = .var returned) ∧
      ∀ x ∈ f.params ++ f.targets, ¬ Numbered (Lowering.stem f.name) x := by
  constructor
  · rintro ⟨t, ht⟩
    rcases lower_eq_ok.1 ht with ⟨returned, hresult, hnames, _⟩
    exact ⟨⟨returned, hresult⟩, fun x hx => hnames x (List.mem_append_left _ hx)⟩
  · rintro ⟨⟨returned, hresult⟩, hnames⟩
    refine ⟨_, lower_eq_ok.2 ⟨returned, hresult, ?_, rfl⟩⟩
    intro x hx
    rcases List.mem_append.1 hx with hx | hx
    · exact hnames x hx
    · rcases List.mem_flatMap.1 hx with ⟨s, hs, hx⟩
      exact hnames x (List.mem_append.2 (hdef.1.mem_reads hs hx))

/-- Everything that a compiler asks of a function. -/
structure Acceptable (limits : Limits) (f : Function) : Prop where
  name : Identifier.IsWord f.name
  statements : f.body.length ≤ limits.maxStatements
  /-- The longest path in the operator tree of a statement is within the limit. -/
  depths : ∀ s ∈ f.body, s.value.height ≤ limits.maxDepth
  resultDepth : f.result.height ≤ limits.maxDepth
  params : ∀ p ∈ f.params, Identifier.IsWord p
  distinct : f.params.Nodup
  targets : ∀ s ∈ f.body, Identifier.IsWord s.target
  /-- A statement reads parameters and targets of earlier statements. -/
  reads : ∀ (k : Nat) (s : Assignment Expr), f.body[k]? = some s → ∀ x ∈ s.value.reads,
    x ∈ f.params ∨ x ∈ f.targets.take k
  resultReads : ∀ x ∈ f.result.reads, x ∈ f.params ∨ x ∈ f.targets
  result : ∃ returned, f.result = .var returned
  unreserved : ∀ x ∈ f.params ++ f.targets, ¬ Numbered ("_tmp_" ++ f.name) x

theorem defined_iff {f : Function} :
    f.Defined ↔ (∀ (k : Nat) (s : Assignment Expr), f.body[k]? = some s → ∀ x ∈ s.value.reads,
        x ∈ f.params ∨ x ∈ f.targets.take k) ∧
      ∀ x ∈ f.result.reads, x ∈ f.params ∨ x ∈ f.targets := by
  refine and_congr defined_iff_take (forall₂_congr fun x _ => ?_)
  rw [List.mem_append, List.mem_reverse, or_comm]

end Function

end Calc

/-! ## Compilers -/

/-- The checks before lowering, place by place. -/
theorem Limits.check_iff {limits : Limits} {f : Calc.Function} :
    limits.check f = .ok () ↔ Identifier.IsWord f.name ∧
      f.body.length ≤ limits.maxStatements ∧
      ((∀ s ∈ f.body, s.value.height ≤ limits.maxDepth) ∧ f.result.height ≤ limits.maxDepth) ∧
      ((∀ p ∈ f.params, Identifier.IsWord p) ∧ f.params.Nodup) ∧
      f.Defined ∧ ∀ s ∈ f.body, Identifier.IsWord s.target := by
  rw [check_eq_ok, checkDepth_eq_ok, Calc.checkParams_eq_ok, Calc.checkDefinitions_eq_ok]
  simp [isIdentifier_iff, Calc.Function.exprs, Expr.depth_eq_height, or_imp, forall_and]

namespace Compiler

theorem compile_ofLimits_eq_ok {limits : Limits} {f : Calc.Function} {t : Tac.Function} :
    ((ofLimits limits).compile f).1 = .ok t ↔ limits.check f = .ok () ∧ f.lower = .ok t := by
  have hnew : Distinguishes limits [] f := fun _ hr => absurd hr List.not_mem_nil
  exact compile_after_eq_ok hnew

/-- A new compiler accepts a function exactly if it is acceptable. -/
theorem exists_compile_iff (limits : Limits) (f : Calc.Function) :
    (∃ t, ((ofLimits limits).compile f).1 = .ok t) ↔ f.Acceptable limits := by
  simp only [compile_ofLimits_eq_ok, exists_and_left]
  constructor
  · rintro ⟨hcheck, hlower⟩
    rcases Limits.check_iff.1 hcheck with
      ⟨hname, hstatements, ⟨hdepths, hdepth⟩, ⟨hparams, hdistinct⟩, hdefined, htargets⟩
    rcases (Calc.Function.exists_lower_iff hdefined).1 hlower with ⟨hresult, hunreserved⟩
    rcases Calc.Function.defined_iff.1 hdefined with ⟨hreads, hreturned⟩
    exact ⟨hname, hstatements, hdepths, hdepth, hparams, hdistinct, htargets, hreads, hreturned,
      hresult, hunreserved⟩
  · intro h
    have hdefined := Calc.Function.defined_iff.2 ⟨h.reads, h.resultReads⟩
    refine ⟨Limits.check_iff.2 ?_, (Calc.Function.exists_lower_iff hdefined).2 ?_⟩
    · exact ⟨h.name, h.statements, ⟨h.depths, h.resultDepth⟩, ⟨h.params, h.distinct⟩, hdefined,
        h.targets⟩
    · exact ⟨h.result, h.unreserved⟩

end Compiler

end StraightLine
