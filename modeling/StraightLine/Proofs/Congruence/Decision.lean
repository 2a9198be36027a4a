import StraightLine.Proofs.Congruence.ClassModel

/-!
# Decision — what the answer of the decision procedure means

* `decideLiterals_closed` — the literals are decided on a closed graph of their terms;
* `not_hold_of_decideLiterals`, `exists_hold_of_decideLiterals` — soundness of either answer;
* `decide_eq_unknown_iff` — the only formulas without an answer are disjunctions;
* `decide_answers_satisfiability` — all of it for a list of assertions.
-/

namespace StraightLine

open Smt

universe u

namespace Congruence

open TermGraph

/-! ## Literals -/

/-- Every literal has well-sorted sides of one sort. -/
def Literals.WellSorted (sig : Signature) (l : Literals) : Prop :=
  ∀ p : Term × Term, l.HasPair p →
    p.1.WellSorted sig ∧ p.2.WellSorted sig ∧ p.1.sort = p.2.sort

/-- Joining pairs of nodes and closing gives the least congruence with the pairs. -/
theorem closed_unionPairs {sig : Signature} {g : TermGraph} (hg : g.Shared)
    (hcov : Covered sig g.nodes) {pairs : List (Nat × Nat)}
    (hpairs : ∀ p ∈ pairs, p.1 < g.nodes.size ∧ p.2 < g.nodes.size) :
    (g.unionPairs pairs).close.Closed sig ∧
      (∀ p ∈ pairs, (g.unionPairs pairs).close.classes.rootOf p.1 =
        (g.unionPairs pairs).close.classes.rootOf p.2) ∧
      ∀ R, IsCongruence g.nodes R → (∀ p ∈ pairs, R p.1 p.2) →
        Within R (g.unionPairs pairs).close.classes := by
  have htrue := (isCongruence_true g.nodes).equivalence
  rcases hg.unionPairs htrue hpairs (fun _ _ => trivial) with ⟨hv, hvsize, _, hjoined⟩
  have hclose := closes_close (g := g.unionPairs pairs) hv hvsize
  refine ⟨⟨hg.ids_iff, hcov, hclose.ranked, hclose.congruence⟩, ?_, ?_⟩
  · exact fun p hp => hclose.coarser _ _ (hjoined p hp)
  · intro R hR hrel
    rcases hg.unionPairs hR.equivalence hpairs hrel with ⟨_, _, hwithin, _⟩
    exact hclose.least R hR hwithin

/-- The graph on which literals are decided: their sides are nodes, and its classes are the least
congruence with the equalities. -/
theorem decideLiterals_closed {sig : Signature} {l : Literals} (hl : l.WellSorted sig)
    (hc : l.contradiction = false) : ∃ (g : TermGraph) (equal different : List (Nat × Nat)),
      g.Closed sig ∧ PairsRepresent g.nodes l.equalities.toList equal ∧
        PairsRepresent g.nodes l.disequalities.toList different ∧
        (∀ p ∈ equal, g.classes.rootOf p.1 = g.classes.rootOf p.2) ∧
        (∀ R, IsCongruence g.nodes R → (∀ p ∈ equal, R p.1 p.2) → Within R g.classes) ∧
        decideLiterals l =
          if anyJoined g.classes different then .unsat else .sat (modelOf g) := by
  have heqs : ∀ p ∈ l.equalities.toList, p.1.WellSorted sig ∧ p.2.WellSorted sig := by
    intro p hp
    rcases hl p (Or.inl (Array.mem_toList_iff.1 hp)) with ⟨h₁, h₂, _⟩
    exact ⟨h₁, h₂⟩
  have hnes : ∀ p ∈ l.disequalities.toList, p.1.WellSorted sig ∧ p.2.WellSorted sig := by
    intro p hp
    rcases hl p (Or.inr (Array.mem_toList_iff.1 hp)) with ⟨h₁, h₂, _⟩
    exact ⟨h₁, h₂⟩
  rcases internPairs_spec Shared.empty heqs with ⟨hgrown, heqreps⟩
  rcases internPairs_spec hgrown.shared hnes with ⟨hgrown', hnereps⟩
  have hempty : Covered sig TermGraph.empty.nodes := by
    intro id hid
    exact absurd hid (Nat.not_lt_zero id)
  have hcov := hgrown'.covered (hgrown.covered hempty)
  have heqreps' := heqreps.extends hgrown'.extends_nodes
  simp only [decideLiterals, hc]
  generalize TermGraph.empty.internPairs l.equalities.toList = interned at *
  rcases interned with ⟨equal, g₁⟩
  dsimp only at *
  generalize g₁.internPairs l.disequalities.toList = interned at *
  rcases interned with ⟨different, g⟩
  dsimp only at *
  rcases closed_unionPairs hgrown'.shared hcov heqreps'.lt_size with ⟨hclosed, hpairs, hleast⟩
  exact ⟨(g.unionPairs equal).close, equal, different, hclosed, heqreps', hnereps, hpairs, hleast,
    rfl⟩

/-- Literals that are refuted hold in no interpretation. -/
theorem not_hold_of_decideLiterals {sig : Signature} {l : Literals} (hl : l.WellSorted sig)
    (h : decideLiterals l = .unsat) (I : Interpretation.{u}) : ¬ l.Hold I := by
  intro hold
  rcases decideLiterals_closed hl hold.contradiction with
    ⟨g, equal, different, hg, heqreps, hnereps, _, hleast, hdecide⟩
  rw [hdecide] at h
  -- some disequation lies inside one class
  have hjoined : anyJoined g.classes different = true := by
    by_contra hne
    rw [if_neg hne] at h
    cases h
  rcases (anyJoined_iff hg.ranked).1 hjoined with ⟨q, hq, hroot⟩
  rcases hnereps.exists_terms q hq with ⟨p, hp, hrep₁, hrep₂⟩
  have hmem := Array.mem_toList_iff.1 hp
  rcases hl p (Or.inr hmem) with ⟨hs₁, hs₂, _⟩
  have hequal : ∀ q ∈ equal,
      nodeValue I sig g.nodes q.1 = nodeValue I sig g.nodes q.2 := by
    intro q hq
    rcases heqreps.exists_terms q hq with ⟨p, hp, hrep₁, hrep₂⟩
    have hmem := Array.mem_toList_iff.1 hp
    rcases hl p (Or.inl hmem) with ⟨hs₁, hs₂, _⟩
    calc
      nodeValue I sig g.nodes q.1
          = I.value p.1 := nodeValue_eq hs₁ hrep₁
      _ = I.value p.2 := hold.equalities p hmem
      _ = nodeValue I sig g.nodes q.2 := (nodeValue_eq hs₂ hrep₂).symm
  -- equal values are a congruence, so nodes of one class have one value
  have hvalue : I.value p.1 = I.value p.2 :=
    calc
      I.value p.1
          = nodeValue I sig g.nodes q.1 := (nodeValue_eq hs₁ hrep₁).symm
      _ = nodeValue I sig g.nodes q.2 :=
            hleast _ (isCongruence_nodeValue hg.covered) hequal q.1 q.2 hroot
      _ = I.value p.2 := nodeValue_eq hs₂ hrep₂
  exact hold.disequalities p hmem hvalue

/-- A model separates the constants as some interpretation of the literals does. -/
structure Separates (m : Model) (I : Interpretation.{u}) (cs : List Constant) : Prop where
  entry : ∀ c ∈ cs, ∃ value, m.get? c.name = some value
  eq_iff : ∀ c ∈ cs, ∀ d ∈ cs, c.sort = d.sort →
    (m.get? c.name = m.get? d.name ↔ I.value (.const c) = I.value (.const d))

/-- The model of a closed graph describes the interpretation by classes. -/
theorem separates_modelOf {sig : Signature} {g : TermGraph} (hg : g.Closed sig)
    {cs : List Constant} (hcs : HasConstants g.nodes cs) :
    Separates (modelOf g) g.classInterpretation cs where
  entry := by
    intro c hc
    rcases hcs c hc with ⟨id, hid⟩
    rcases hg.modelOf_spec with ⟨_, _, hentries⟩
    rcases hentries hid with ⟨_, _, hentry⟩
    exact ⟨_, hentry⟩
  eq_iff := by
    intro c hc d hd hsort
    rcases hcs c hc with ⟨i, hi⟩
    rcases hcs d hd with ⟨j, hj⟩
    have hvalue : ∀ {e : Constant} {id : Nat}, g.nodes[id]? = some (.const e) →
        g.classInterpretation.value (.const e) = ⟨e.sort, g.classes.rootOf id⟩ := by
      intro e id hid
      exact hg.value_eq (t := .const e) (sortOf_of_node hg.covered hid) hid
    rw [hg.get?_modelOf_eq_iff hi hj hsort, hvalue hi, hvalue hj, hsort]
    simp

/-- The constants of the literals. -/
def Literals.HasConstant (l : Literals) (c : Constant) : Prop :=
  ∃ p : Term × Term, l.HasPair p ∧ (c ∈ p.1.constants ∨ c ∈ p.2.constants)

/-- Literals that have a model hold in the interpretation by classes, which the model describes. -/
theorem exists_hold_of_decideLiterals {sig : Signature} {l : Literals} (hl : l.WellSorted sig)
    {m : Model} (h : decideLiterals l = .sat m) : ∃ I : Interpretation.{0}, l.Hold I ∧
      ∀ cs : List Constant, (∀ c ∈ cs, l.HasConstant c) → Separates m I cs := by
  have hc : l.contradiction = false := by
    cases hc : l.contradiction with
    | false =>
        rfl
    | true =>
        simp [decideLiterals, hc] at h
  rcases decideLiterals_closed hl hc with
    ⟨g, equal, different, hg, heqreps, hnereps, hequal, _, hdecide⟩
  rw [hdecide] at h
  have hapart : ¬ anyJoined g.classes different = true := by
    intro hjoined
    rw [if_pos hjoined] at h
    cases h
  rw [if_neg hapart] at h
  cases h
  refine ⟨g.classInterpretation, ⟨?_, ?_, hc⟩, ?_⟩
  · intro p hp
    rcases hl p (Or.inl hp) with ⟨hs₁, hs₂, hsort⟩
    rcases heqreps.exists_ids p (Array.mem_toList_iff.2 hp) with ⟨q, hq, hrep₁, hrep₂⟩
    calc
      g.classInterpretation.value p.1
          = ⟨p.1.sort, g.classes.rootOf q.1⟩ := hg.value_eq hs₁ hrep₁
      _ = ⟨p.2.sort, g.classes.rootOf q.2⟩ := by
            rw [hsort, hequal q hq]
      _ = g.classInterpretation.value p.2 := (hg.value_eq hs₂ hrep₂).symm
  · intro p hp hvalue
    rcases hl p (Or.inr hp) with ⟨hs₁, hs₂, _⟩
    rcases hnereps.exists_ids p (Array.mem_toList_iff.2 hp) with ⟨q, hq, hrep₁, hrep₂⟩
    rw [hg.value_eq hs₁ hrep₁, hg.value_eq hs₂ hrep₂] at hvalue
    injection hvalue with _ hroot
    exact hapart ((anyJoined_iff hg.ranked).2 ⟨q, hq, hroot⟩)
  · intro cs hcs
    refine separates_modelOf hg ?_
    intro c hc
    rcases hcs c hc with ⟨p, hp, hmem⟩
    have hside := List.mem_append.2 hmem
    rcases hp with hp | hp
    · exact heqreps.hasConstants (Array.mem_toList_iff.2 hp) c hside
    · exact hnereps.hasConstants (Array.mem_toList_iff.2 hp) c hside

/-! ## Assertions -/

theorem decide_eq {assertions : List Formula} :
    decide assertions = match Literals.collectAll {} assertions with
      | .error shape => .unknown ("not a conjunction of literals: " ++ shape.text)
      | .ok l => decideLiterals l :=
  rfl

theorem decideLiterals_ne_unknown (l : Literals) (reason : String) :
    decideLiterals l ≠ .unknown reason := by
  unfold decideLiterals
  split
  · simp
  · dsimp only
    split <;> simp

/-- There is no answer exactly if some assertion is a disjunction when negations are pushed
inward. -/
theorem decide_eq_unknown_iff {assertions : List Formula} :
    (∃ reason, decide assertions = .unknown reason) ↔ ∃ f ∈ assertions, Disjunctive true f := by
  rw [← Literals.fails_collectAll_iff (l := {}), decide_eq]
  cases Literals.collectAll {} assertions with
  | error shape =>
      simp [Literals.Fails]
  | ok l =>
      simp [Literals.Fails, decideLiterals_ne_unknown]

/-- Without disjunctions the assertions are decided by their literals. -/
theorem exists_literals {sig : Signature} {assertions : List Formula}
    (h : ∀ f ∈ assertions, f.WellSorted sig) (hconj : ¬ ∃ f ∈ assertions, Disjunctive true f) :
    ∃ l : Literals, decide assertions = decideLiterals l ∧ l.WellSorted sig ∧
      (∀ I : Interpretation.{u}, l.Hold I ↔ ∀ f ∈ assertions, I.Holds f) ∧
      ∀ c ∈ Formula.constantsOf assertions, l.HasConstant c := by
  rw [← Literals.fails_collectAll_iff (l := {})] at hconj
  rw [decide_eq]
  cases hl : Literals.collectAll {} assertions with
  | error shape =>
      exact absurd ⟨shape, hl⟩ hconj
  | ok l =>
      -- nothing was collected before the first assertion
      have hpair : ∀ p, l.HasPair p ↔ p ∈ Formula.equationsOf assertions := by
        intro p
        rw [Literals.hasPair_collectAll hl]
        simp [Literals.HasPair]
      refine ⟨l, rfl, ?_, ?_, ?_⟩
      · intro p hp
        exact Formula.AllWellSorted.of_mem_equationsOf (Formula.allWellSorted_iff.2 h) p
          ((hpair p).1 hp)
      · intro I
        rw [Literals.hold_collectAll hl, Interpretation.holdsAll_iff]
        simp [Literals.hold_empty]
      · intro c hc
        rcases (Formula.mem_constantsOf_iff assertions).1 hc with ⟨p, hp, hmem⟩
        exact ⟨p, (hpair p).2 hp, hmem⟩

theorem not_holds_of_decide_eq_unsat {sig : Signature} {assertions : List Formula}
    (h : ∀ f ∈ assertions, f.WellSorted sig) (hunsat : decide assertions = .unsat)
    (I : Interpretation.{u}) : ¬ ∀ f ∈ assertions, I.Holds f := by
  have hconj : ¬ ∃ f ∈ assertions, Disjunctive true f := by
    rw [← decide_eq_unknown_iff, hunsat]
    rintro ⟨_, h⟩
    cases h
  rcases exists_literals h hconj with ⟨l, hdecide, hl, hhold, _⟩
  rw [← hhold]
  exact not_hold_of_decideLiterals hl (hdecide.symm.trans hunsat) I

theorem exists_holds_of_decide_eq_sat {sig : Signature} {assertions : List Formula}
    (h : ∀ f ∈ assertions, f.WellSorted sig) {m : Model} (hsat : decide assertions = .sat m) :
    ∃ I : Interpretation.{0}, (∀ f ∈ assertions, I.Holds f) ∧
      Separates m I (Formula.constantsOf assertions) := by
  have hconj : ¬ ∃ f ∈ assertions, Disjunctive true f := by
    rw [← decide_eq_unknown_iff, hsat]
    rintro ⟨_, h⟩
    cases h
  rcases exists_literals h hconj with ⟨l, hdecide, hl, hhold, hconst⟩
  rcases exists_hold_of_decideLiterals hl (hdecide.symm.trans hsat) with ⟨I, hI, hsep⟩
  exact ⟨I, (hhold I).1 hI, hsep _ hconst⟩

/-- On a conjunctive input the answer is satisfiability. -/
theorem decide_eq_unsat_iff {sig : Signature} {assertions : List Formula}
    (h : ∀ f ∈ assertions, f.WellSorted sig) (hconj : ¬ ∃ f ∈ assertions, Disjunctive true f) :
    decide assertions = .unsat ↔ ¬ ∃ I : Interpretation.{0}, ∀ f ∈ assertions, I.Holds f := by
  constructor
  · rintro hunsat ⟨I, hI⟩
    exact not_holds_of_decide_eq_unsat h hunsat I hI
  · intro hnone
    cases hdecide : decide assertions with
    | unsat =>
        rfl
    | sat m =>
        rcases exists_holds_of_decide_eq_sat h hdecide with ⟨I, hI, _⟩
        exact absurd ⟨I, hI⟩ hnone
    | unknown reason =>
        exact absurd (decide_eq_unknown_iff.1 ⟨reason, hdecide⟩) hconj

/-- Well-sorted assertions that are refuted hold in no interpretation. Those with a model hold in
an interpretation that the model describes: every constant has an entry, and the entries of two
constants of one sort are equal exactly if their values are. The only inputs without an answer
are disjunctions, so on every other input the answer decides satisfiability. -/
theorem decide_answers_satisfiability (sig : Signature) (assertions : List Formula)
    (h : ∀ f ∈ assertions, f.WellSorted sig) :
    (decide assertions = .unsat → ∀ I : Interpretation.{u}, ¬ ∀ f ∈ assertions, I.Holds f) ∧
    (∀ m, decide assertions = .sat m → ∃ I : Interpretation.{0}, (∀ f ∈ assertions, I.Holds f) ∧
      (∀ c ∈ Formula.constantsOf assertions, ∃ value, m.get? c.name = some value) ∧
      ∀ c ∈ Formula.constantsOf assertions, ∀ d ∈ Formula.constantsOf assertions,
        c.sort = d.sort →
          (m.get? c.name = m.get? d.name ↔ I.value (.const c) = I.value (.const d))) ∧
    ((∃ reason, decide assertions = .unknown reason) ↔ ∃ f ∈ assertions, Disjunctive true f) ∧
    ((¬ ∃ f ∈ assertions, Disjunctive true f) → (decide assertions = .unsat ↔
      ¬ ∃ I : Interpretation.{0}, ∀ f ∈ assertions, I.Holds f)) := by
  refine ⟨not_holds_of_decide_eq_unsat h, ?_, decide_eq_unknown_iff, decide_eq_unsat_iff h⟩
  intro m hm
  rcases exists_holds_of_decide_eq_sat h hm with ⟨I, hI, hsep⟩
  exact ⟨I, hI, hsep.entry, hsep.eq_iff⟩

/-- Two equal constants cannot have different values under a function. -/
theorem decide_congruent_applications :
    let s : UninterpretedSort := ⟨"S"⟩
    let f : FunctionSymbol := ⟨"f", [s], s⟩
    let a : Term := .const ⟨"a", s⟩
    let b : Term := .const ⟨"b", s⟩
    let assertions : List Formula := [.eq a b, .not (.eq (.app f [a]) (.app f [b]))]
    (∀ g ∈ assertions, g.WellSorted ⟨fun _ => s, fun _ => f⟩) ∧ decide assertions = .unsat := by
  intro s f a b assertions
  have hsorted : ∀ g ∈ assertions, g.WellSorted ⟨fun _ => s, fun _ => f⟩ := by
    simp [assertions, a, b, f, Formula.WellSorted, Term.WellSorted, Term.AllWellSorted, Term.sort]
  have hconj : ¬ ∃ g ∈ assertions, Disjunctive true g := by
    rintro ⟨g, hg, hdisj⟩
    rcases List.mem_pair.1 hg with rfl | rfl
    · cases hdisj
    · cases hdisj with
      | not hdisj =>
          cases hdisj
  -- the answer follows from unsatisfiability, so nothing has to be run
  have hanswers := decide_answers_satisfiability.{0} _ assertions hsorted
  refine ⟨hsorted, (hanswers.2.2.2 hconj).2 ?_⟩
  rintro ⟨I, hI⟩
  have hab : I.Holds (.eq a b) := hI _ (by simp [assertions])
  have hne : I.Holds (.not (.eq (.app f [a]) (.app f [b]))) := hI _ (by simp [assertions])
  rw [Interpretation.Holds] at hab
  simp [Interpretation.Holds, Interpretation.value, Interpretation.values, hab] at hne

end Congruence

end StraightLine
