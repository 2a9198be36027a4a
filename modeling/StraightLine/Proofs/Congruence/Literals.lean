import StraightLine.Congruence
import StraightLine.Proofs.Chain
import StraightLine.Proofs.Smt.Interpretation

/-!
# Literals — what is left of a formula when negations are pushed inward

A formula that holds, or that does not, is a conjunction of equations and disequations unless some
part of it is a disjunction.

* `Disjunctive` — pushing negations inward leads to a disjunction; `fails_collect_iff`;
* `Literals.Hold` — every literal holds; `hold_collect` — the literals say what the formula says;
* `Formula.equations` — the equations of a formula; `hasPair_collect` — they are the sides of the
  literals.
-/

namespace StraightLine

open Smt

universe u

/-! ## Equations of a formula -/

namespace Smt.Formula

mutual

/-- The two sides of each equation, from left to right. -/
def equations : Formula → List (Term × Term)
  | eq left right => [(left, right)]
  | not inner => inner.equations
  | and conjuncts => equationsOf conjuncts
  | implies antecedent consequent => antecedent.equations ++ consequent.equations

def equationsOf : List Formula → List (Term × Term)
  | [] => []
  | f :: rest => f.equations ++ equationsOf rest

end

mutual

theorem mem_constants_iff {c : Constant} : ∀ f : Formula,
    c ∈ f.constants ↔ ∃ p ∈ f.equations, c ∈ p.1.constants ∨ c ∈ p.2.constants
  | eq left right => by
      simp [constants, equations]
  | not inner => by
      simpa [constants, equations] using mem_constants_iff inner
  | and conjuncts => by
      simpa [constants, equations] using mem_constantsOf_iff conjuncts
  | implies antecedent consequent => by
      have ha := mem_constants_iff (c := c) antecedent
      have hc := mem_constants_iff (c := c) consequent
      simp only [constants, equations, List.mem_append, ha, hc, or_and_right, exists_or]

theorem mem_constantsOf_iff {c : Constant} : ∀ fs : List Formula,
    c ∈ constantsOf fs ↔ ∃ p ∈ equationsOf fs, c ∈ p.1.constants ∨ c ∈ p.2.constants
  | [] => by
      simp [constantsOf, equationsOf]
  | f :: rest => by
      have hf := mem_constants_iff (c := c) f
      have hrest := mem_constantsOf_iff (c := c) rest
      simp only [constantsOf, equationsOf, List.mem_append, hf, hrest, or_and_right, exists_or]

end

mutual

theorem WellSorted.of_mem_equations {sig : Signature} : ∀ {f : Formula}, f.WellSorted sig →
    ∀ p ∈ f.equations, p.1.WellSorted sig ∧ p.2.WellSorted sig ∧ p.1.sort = p.2.sort
  | eq left right, h => by
      intro p hp
      cases List.mem_singleton.1 hp
      exact h
  | not inner, h => WellSorted.of_mem_equations (f := inner) h
  | and _, h => AllWellSorted.of_mem_equationsOf h
  | implies _ _, h => by
      intro p hp
      rcases List.mem_append.1 hp with hp | hp
      · exact WellSorted.of_mem_equations h.1 p hp
      · exact WellSorted.of_mem_equations h.2 p hp

theorem AllWellSorted.of_mem_equationsOf {sig : Signature} : ∀ {fs : List Formula},
    AllWellSorted sig fs → ∀ p ∈ equationsOf fs,
      p.1.WellSorted sig ∧ p.2.WellSorted sig ∧ p.1.sort = p.2.sort
  | [], _ => by
      intro p hp
      cases hp
  | _ :: _, h => by
      intro p hp
      rcases List.mem_append.1 hp with hp | hp
      · exact WellSorted.of_mem_equations h.1 p hp
      · exact AllWellSorted.of_mem_equationsOf h.2 p hp

end

end Smt.Formula

namespace Congruence

/-! ## Disjunctions -/

/-- Pushing negations inward from a formula that holds (`positive`), or that does not, reaches an
implication that holds or a conjunction of several formulas that does not. -/
inductive Disjunctive : (positive : Bool) → Formula → Prop where
  | implies (a c : Formula) : Disjunctive true (.implies a c)
  | and {fs : List Formula} (h : 2 ≤ fs.length) : Disjunctive false (.and fs)
  | not {positive : Bool} {f : Formula} (h : Disjunctive (!positive) f) :
      Disjunctive positive (.not f)
  | conjunct {fs : List Formula} {f : Formula} (hf : f ∈ fs) (h : Disjunctive true f) :
      Disjunctive true (.and fs)
  | single {f : Formula} (h : Disjunctive false f) : Disjunctive false (.and [f])
  | antecedent {a c : Formula} (h : Disjunctive true a) : Disjunctive false (.implies a c)
  | consequent {a c : Formula} (h : Disjunctive false c) : Disjunctive false (.implies a c)

namespace Literals

/-- No answer but an error. -/
def Fails (result : Except Formula Literals) : Prop :=
  ∃ shape, result = .error shape

/-- Whether a formula can be collected does not depend on the literals before it, so a chain fails
if either part does. -/
theorem fails_bind_iff {P Q : Prop} {result : Except Formula Literals}
    {next : Literals → Except Formula Literals} (hresult : Fails result ↔ P)
    (hnext : ∀ l, Fails (next l) ↔ Q) : Fails (result >>= next) ↔ P ∨ Q := by
  cases result with
  | error shape =>
      have hP : P := hresult.1 ⟨shape, rfl⟩
      exact ⟨fun _ => Or.inl hP, fun _ => ⟨shape, rfl⟩⟩
  | ok l =>
      have hP : ¬ P := by
        intro h
        rcases hresult.2 h with ⟨_, h⟩
        cases h
      rw [← hnext l]
      exact ⟨Or.inr, fun h => h.resolve_left hP⟩

theorem collect_implies (l : Literals) (a c : Formula) :
    l.collect false (.implies a c) = l.collect true a >>= fun l => l.collect false c := by
  rw [collect, if_neg Bool.false_ne_true]
  cases l.collect true a <;> rfl

theorem collectAll_cons (l : Literals) (f : Formula) (rest : List Formula) :
    l.collectAll (f :: rest) = l.collect true f >>= fun l => l.collectAll rest := by
  rw [collectAll]
  cases l.collect true f <;> rfl

mutual

theorem fails_collect_iff : ∀ {f : Formula} {l : Literals} {positive : Bool},
    Fails (l.collect positive f) ↔ Disjunctive positive f
  | .eq a b, l, positive => by
      constructor
      · rintro ⟨shape, h⟩
        simp [collect] at h
      · intro h
        cases h
  | .not inner, l, positive => by
      rw [collect, fails_collect_iff]
      constructor
      · exact .not
      · rintro (_ | _ | h)
        exact h
  | .and fs, l, true => by
      rw [collect, fails_collectAll_iff]
      constructor
      · rintro ⟨f, hf, h⟩
        exact .conjunct hf h
      · intro h
        cases h with
        | conjunct hf h =>
            exact ⟨_, hf, h⟩
  | .and [], l, false => by
      constructor
      · rintro ⟨shape, h⟩
        simp [collect] at h
      · intro h
        cases h with
        | and h =>
            cases h
  | .and [f], l, false => by
      rw [collect, fails_collect_iff]
      constructor
      · exact .single
      · intro h
        cases h with
        | and h =>
            exact absurd h (by simp)
        | single h =>
            exact h
  | .and (f :: g :: rest), l, false => by
      constructor
      · intro _
        exact .and (by simp)
      · intro _
        exact ⟨_, rfl⟩
  | .implies a c, l, true => by
      constructor
      · intro _
        exact .implies a c
      · intro _
        exact ⟨_, rfl⟩
  | .implies a c, l, false => by
      rw [collect_implies, fails_bind_iff fails_collect_iff fun _ => fails_collect_iff]
      constructor
      · rintro (h | h)
        · exact .antecedent h
        · exact .consequent h
      · intro h
        cases h with
        | antecedent h =>
            exact Or.inl h
        | consequent h =>
            exact Or.inr h

theorem fails_collectAll_iff : ∀ {fs : List Formula} {l : Literals},
    Fails (l.collectAll fs) ↔ ∃ f ∈ fs, Disjunctive true f
  | [], l => by
      simp [collectAll, Fails]
  | f :: rest, l => by
      rw [collectAll_cons, fails_bind_iff fails_collect_iff fun _ => fails_collectAll_iff]
      simp only [List.mem_cons, or_and_right, exists_or, exists_eq_left]

end

/-! ## What the literals say -/

/-- Every literal holds. -/
structure Hold (I : Interpretation.{u}) (l : Literals) : Prop where
  equalities : ∀ p ∈ l.equalities, I.value p.1 = I.value p.2
  disequalities : ∀ p ∈ l.disequalities, I.value p.1 ≠ I.value p.2
  contradiction : l.contradiction = false

theorem hold_empty (I : Interpretation.{u}) : Hold I {} where
  equalities := by
    intro p hp
    simp at hp
  disequalities := by
    intro p hp
    simp at hp
  contradiction := rfl

theorem hold_addEquality {I : Interpretation.{u}} {l : Literals} {a b : Term} :
    Hold I (l.addEquality a b) ↔ Hold I l ∧ I.value a = I.value b := by
  constructor
  · rintro ⟨heq, hne, hc⟩
    refine ⟨⟨fun p hp => heq p ?_, hne, hc⟩, heq (a, b) ?_⟩
    · simp [addEquality, hp]
    · simp [addEquality]
  · rintro ⟨⟨heq, hne, hc⟩, hab⟩
    refine ⟨?_, hne, hc⟩
    intro p hp
    rcases Array.mem_push.1 hp with hp | rfl
    · exact heq p hp
    · exact hab

theorem hold_addDisequality {I : Interpretation.{u}} {l : Literals} {a b : Term} :
    Hold I (l.addDisequality a b) ↔ Hold I l ∧ I.value a ≠ I.value b := by
  constructor
  · rintro ⟨heq, hne, hc⟩
    refine ⟨⟨heq, fun p hp => hne p ?_, hc⟩, hne (a, b) ?_⟩
    · simp [addDisequality, hp]
    · simp [addDisequality]
  · rintro ⟨⟨heq, hne, hc⟩, hab⟩
    refine ⟨heq, ?_, hc⟩
    intro p hp
    rcases Array.mem_push.1 hp with hp | rfl
    · exact hne p hp
    · exact hab

mutual

/-- The new literals say that the formula holds, or that it does not. -/
theorem hold_collect {I : Interpretation.{u}} : ∀ {f : Formula} {l l' : Literals}
    {positive : Bool}, l.collect positive f = .ok l' →
      (Hold I l' ↔ Hold I l ∧ (I.Holds f ↔ positive = true))
  | .eq a b, l, l', true, h => by
      cases h
      simpa [Interpretation.Holds] using hold_addEquality
  | .eq a b, l, l', false, h => by
      cases h
      simpa [Interpretation.Holds] using hold_addDisequality
  | .not inner, l, l', positive, h => by
      rw [collect] at h
      rw [hold_collect h, Interpretation.Holds]
      cases positive <;> simp
  | .and fs, l, l', true, h => by
      rw [collect] at h
      rw [hold_collectAll h, Interpretation.Holds]
      simp
  | .and [], l, l', false, h => by
      -- a conjunction of nothing holds, so denying it is the contradiction
      cases h
      constructor
      · intro h
        cases h.contradiction
      · rintro ⟨_, h⟩
        simp [Interpretation.Holds, Interpretation.HoldsAll] at h
  | .and [f], l, l', false, h => by
      rw [collect] at h
      rw [hold_collect h, Interpretation.Holds, Interpretation.HoldsAll, Interpretation.HoldsAll]
      simp
  | .and (f :: g :: rest), l, l', false, h => by
      cases h
  | .implies a c, l, l', true, h => by
      cases h
  | .implies a c, l, l', false, h => by
      rw [collect_implies] at h
      rcases except_bind_eq_ok.1 h with ⟨m, ha, hc⟩
      rw [hold_collect hc, hold_collect ha, Interpretation.Holds]
      simp [and_assoc]

theorem hold_collectAll {I : Interpretation.{u}} : ∀ {fs : List Formula} {l l' : Literals},
    l.collectAll fs = .ok l' → (Hold I l' ↔ Hold I l ∧ I.HoldsAll fs)
  | [], l, l', h => by
      cases h
      simp [Interpretation.HoldsAll]
  | f :: rest, l, l', h => by
      rw [collectAll_cons] at h
      rcases except_bind_eq_ok.1 h with ⟨m, hf, hrest⟩
      rw [hold_collectAll hrest, hold_collect hf, Interpretation.HoldsAll]
      simp [and_assoc]

end

/-! ## The sides of the literals -/

/-- A pair is the two sides of an equation or of a disequation. -/
def HasPair (l : Literals) (p : Term × Term) : Prop :=
  p ∈ l.equalities ∨ p ∈ l.disequalities

mutual

theorem hasPair_collect {p : Term × Term} : ∀ {f : Formula} {l l' : Literals} {positive : Bool},
    l.collect positive f = .ok l' → (l'.HasPair p ↔ l.HasPair p ∨ p ∈ f.equations)
  | .eq a b, l, l', true, h => by
      cases h
      simp [HasPair, addEquality, Formula.equations, or_right_comm]
  | .eq a b, l, l', false, h => by
      cases h
      simp [HasPair, addDisequality, Formula.equations, or_assoc]
  | .not inner, l, l', positive, h => by
      rw [collect] at h
      rw [hasPair_collect h, Formula.equations]
  | .and fs, l, l', true, h => by
      rw [collect] at h
      rw [hasPair_collectAll h, Formula.equations]
  | .and [], l, l', false, h => by
      cases h
      simp [HasPair, Formula.equations, Formula.equationsOf]
  | .and [f], l, l', false, h => by
      rw [collect] at h
      rw [hasPair_collect h, Formula.equations, Formula.equationsOf, Formula.equationsOf,
        List.append_nil]
  | .and (f :: g :: rest), l, l', false, h => by
      cases h
  | .implies a c, l, l', true, h => by
      cases h
  | .implies a c, l, l', false, h => by
      rw [collect_implies] at h
      rcases except_bind_eq_ok.1 h with ⟨m, ha, hc⟩
      rw [hasPair_collect hc, hasPair_collect ha, Formula.equations, List.mem_append, or_assoc]

theorem hasPair_collectAll {p : Term × Term} : ∀ {fs : List Formula} {l l' : Literals},
    l.collectAll fs = .ok l' → (l'.HasPair p ↔ l.HasPair p ∨ p ∈ Formula.equationsOf fs)
  | [], l, l', h => by
      cases h
      simp [Formula.equationsOf]
  | f :: rest, l, l', h => by
      rw [collectAll_cons] at h
      rcases except_bind_eq_ok.1 h with ⟨m, hf, hrest⟩
      rw [hasPair_collectAll hrest, hasPair_collect hf, Formula.equationsOf, List.mem_append,
        or_assoc]

end

end Literals

end Congruence

end StraightLine
