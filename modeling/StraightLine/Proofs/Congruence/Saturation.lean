import Mathlib.Data.List.ProdSigma
import StraightLine.Proofs.Congruence.LeastCongruence

/-!
# Saturation — a naive closure

A closure that looks at all pairs of applications again and again, until nothing changes, ends with
the least congruence as well, and so with the classes that the loop ends with.

* `congruent`, `joinCongruent` — one pair;
* `Joined` — what joining below a congruence keeps;
* `rescan`, `saturate` — all pairs once, and until nothing changes;
* `closes_saturate` — the least congruence.
-/

namespace StraightLine

namespace Congruence

open UnionFind

/-! ## The closure -/

/-- Whether two nodes are applications of one function to arguments in the same classes. -/
def congruent (nodes : Array Node) (u : UnionFind) (i j : Nat) : Bool :=
  match nodes[i]?, nodes[j]? with
  | some (.app f xs), some (.app g ys) => f == g && xs.map u.rootOf == ys.map u.rootOf
  | _, _ => false

def joinCongruent (nodes : Array Node) (u : UnionFind) (p : Nat × Nat) : UnionFind :=
  if congruent nodes u p.1 p.2 then (u.union p.1 p.2).2 else u

/-- Joins each of the pairs that is congruent when its turn comes. -/
def rescan (nodes : Array Node) (pairs : List (Nat × Nat)) (u : UnionFind) : UnionFind :=
  pairs.foldl (joinCongruent nodes) u

/-- Looks at all pairs of nodes as long as some were joined. -/
def saturate (nodes : Array Node) (u : UnionFind) : UnionFind :=
  let v := rescan nodes ((List.range nodes.size).product (List.range nodes.size)) u
  if (roots v).card < (roots u).card then saturate nodes v else v
  termination_by (roots u).card

/-! ## One pair -/

section Pairs

variable {nodes : Array Node} {R : Nat → Nat → Prop} {u v w : UnionFind}

theorem congruent_iff {i j : Nat} : congruent nodes u i j = true ↔
    ∃ f xs ys, nodes[i]? = some (.app f xs) ∧ nodes[j]? = some (.app f ys) ∧
      List.Forall₂ (fun x y => u.rootOf x = u.rootOf y) xs ys := by
  unfold congruent
  constructor
  · split
    next f xs g ys hi hj =>
      intro h
      simp only [Bool.and_eq_true, beq_iff_eq] at h
      rcases h with ⟨rfl, hxy⟩
      exact ⟨f, xs, ys, hi, hj, map_eq_map_iff_forall₂.1 hxy⟩
    next =>
      intro h
      cases h
  · rintro ⟨f, xs, ys, hi, hj, hxy⟩
    simp [hi, hj, map_eq_map_iff_forall₂.2 hxy]

/-- Classes are joined below a relation: no root changes, or there are fewer of them. -/
structure Joined (R : Nat → Nat → Prop) (u v : UnionFind) : Prop where
  ranked : v.Ranked
  size : v.size = u.size
  within : Within R v
  coarser : Coarser u v
  roots : (∀ z, v.rootOf z = u.rootOf z) ∨ (roots v).card < (roots u).card

theorem Joined.refl (hu : u.Ranked) (hwithin : Within R u) : Joined R u u where
  ranked := hu
  size := rfl
  within := hwithin
  coarser := fun _ _ hij => hij
  roots := Or.inl fun _ => rfl

theorem Joined.card_le (h : Joined R u v) :
    (Congruence.roots v).card ≤ (Congruence.roots u).card := by
  rcases h.roots with hroot | hless
  · rw [roots_congr h.size hroot]
  · exact Nat.le_of_lt hless

theorem Joined.trans (h : Joined R u v) (h' : Joined R v w) : Joined R u w where
  ranked := h'.ranked
  size := h'.size.trans h.size
  within := h'.within
  coarser := fun i j hij => h'.coarser i j (h.coarser i j hij)
  roots := by
    rcases h.roots with hroot | hless
    · rcases h'.roots with hroot' | hless
      · exact Or.inl fun z => (hroot' z).trans (hroot z)
      · exact Or.inr (roots_congr h.size hroot ▸ hless)
    · exact Or.inr (Nat.lt_of_le_of_lt h'.card_le hless)

/-- A root that is lost does not come back. -/
theorem Joined.rootOf_eq (h : Joined R u v) (h' : Joined R v w)
    (hroot : ∀ z, w.rootOf z = u.rootOf z) : ∀ z, v.rootOf z = u.rootOf z := by
  rcases h.roots with hsame | hless
  · exact hsame
  · have hcard := Nat.lt_of_le_of_lt h'.card_le hless
    rw [roots_congr (h'.size.trans h.size) hroot] at hcard
    exact absurd hcard (Nat.lt_irrefl _)

theorem joined_union (hR : Equivalence R) (hu : u.Ranked) {a b : Nat} (ha : a < u.size)
    (hb : b < u.size) (hab : R a b) (hwithin : Within R u) : Joined R u (u.union a b).2 := by
  rcases TermGraph.union_spec hR hu ha hb hab hwithin with ⟨hranked, hwithin', hcoarser, _⟩
  refine ⟨hranked, size_union u a b, hwithin', hcoarser, ?_⟩
  have hroot : ∀ x, u.rootOf (u.rootOf x) = u.rootOf x := rootOf_rootOf hu
  rcases joins_union hu ha hb with ⟨_, _, _, hkeep⟩ | ⟨_, hne, hj | hj⟩
  · exact Or.inl hkeep
  · exact Or.inr (card_roots_lt_of_joins hj (hroot a) (hroot b) (rootOf_lt hu hb) hne)
  · exact Or.inr (card_roots_lt_of_joins hj (hroot b) (hroot a) (rootOf_lt hu ha) hne.symm)

/-- A congruent pair that leaves all roots alone was in one class. -/
theorem joinCongruent_spec (hR : IsCongruence nodes R) (hu : u.Ranked)
    (hsize : u.size = nodes.size) (hwithin : Within R u) (p : Nat × Nat) :
    Joined R u (joinCongruent nodes u p) ∧
      (congruent nodes u p.1 p.2 = true →
        (∀ z, (joinCongruent nodes u p).rootOf z = u.rootOf z) → u.rootOf p.1 = u.rootOf p.2) := by
  unfold joinCongruent
  by_cases hp : congruent nodes u p.1 p.2 = true
  · rw [if_pos hp]
    rcases congruent_iff.1 hp with ⟨f, xs, ys, hi, hj, hxy⟩
    have hi' : p.1 < u.size := hsize ▸ (Array.getElem?_eq_some_iff.1 hi).1
    have hj' : p.2 < u.size := hsize ▸ (Array.getElem?_eq_some_iff.1 hj).1
    have hrel : R p.1 p.2 := hR.app hi hj (hxy.imp hwithin)
    refine ⟨joined_union hR.equivalence hu hi' hj' hrel hwithin, ?_⟩
    intro _ hroot
    rcases TermGraph.union_spec hR.equivalence hu hi' hj' hrel hwithin with ⟨_, _, _, hsame⟩
    rwa [hroot, hroot] at hsame
  · rw [if_neg hp]
    exact ⟨.refl hu hwithin, fun hc => absurd hc hp⟩

/-! ## All pairs -/

theorem congruent_congr (hroot : ∀ z, v.rootOf z = u.rootOf z) (i j : Nat) :
    congruent nodes v i j = congruent nodes u i j := by
  have hfun : v.rootOf = u.rootOf := funext hroot
  simp only [congruent, hfun]

/-- If no root changes, there was nothing to join. -/
theorem rescan_spec (hR : IsCongruence nodes R) (hu : u.Ranked) (hsize : u.size = nodes.size)
    (hwithin : Within R u) {pairs : List (Nat × Nat)} :
    Joined R u (rescan nodes pairs u) ∧
      ((∀ z, (rescan nodes pairs u).rootOf z = u.rootOf z) →
        ∀ p ∈ pairs, congruent nodes u p.1 p.2 = true → u.rootOf p.1 = u.rootOf p.2) := by
  induction pairs generalizing u with
  | nil =>
      exact ⟨.refl hu hwithin, fun _ p hp => absurd hp List.not_mem_nil⟩
  | cons p rest ih =>
      rcases joinCongruent_spec hR hu hsize hwithin p with ⟨hjoined, hfirst⟩
      rcases ih hjoined.ranked (hjoined.size.trans hsize) hjoined.within with ⟨hlater, hrest⟩
      refine ⟨hjoined.trans hlater, ?_⟩
      intro hroot
      -- so the first pair changed none, and the others were looked at in the same classes
      have hkept := hjoined.rootOf_eq hlater hroot
      rw [List.forall_mem_cons]
      refine ⟨fun hp => hfirst hp hkept, ?_⟩
      intro q hq hqc
      have hsame := hrest (fun z => (hroot z).trans (hkept z).symm) q hq
        ((congruent_congr hkept q.1 q.2).trans hqc)
      rwa [hkept, hkept] at hsame

theorem saturate_spec (hR : IsCongruence nodes R) (hu : u.Ranked) (hsize : u.size = nodes.size)
    (hwithin : Within R u) :
    Within R (saturate nodes u) ∧ Coarser u (saturate nodes u) ∧ (saturate nodes u).Ranked ∧
      IsCongruence nodes fun i j => (saturate nodes u).rootOf i = (saturate nodes u).rootOf j := by
  fun_induction saturate nodes u with
  | case1 u v hless ih =>
      have hjoined : Joined R u v := (rescan_spec hR hu hsize hwithin).1
      rcases ih hjoined.ranked (hjoined.size.trans hsize) hjoined.within with
        ⟨hlast, hcoarser, hranked, hcong⟩
      exact ⟨hlast, fun i j hij => hcoarser i j (hjoined.coarser i j hij), hranked, hcong⟩
  | case2 u v hstop =>
      rcases rescan_spec hR hu hsize hwithin with ⟨hjoined, hpairs⟩
      have hroot := hjoined.roots.resolve_right hstop
      refine ⟨hjoined.within, hjoined.coarser, hjoined.ranked, ⟨fun _ => rfl, Eq.symm, Eq.trans⟩,
        ?_⟩
      intro i j f xs ys hi hj hxy
      have hfun : v.rootOf = u.rootOf := funext hroot
      simp only [hfun] at hxy ⊢
      refine hpairs hroot (i, j) ?_ (congruent_iff.2 ⟨f, xs, ys, hi, hj, hxy⟩)
      exact List.mem_product.2 ⟨List.mem_range.2 (Array.getElem?_eq_some_iff.1 hi).1,
        List.mem_range.2 (Array.getElem?_eq_some_iff.1 hj).1⟩

theorem closes_saturate (hu : u.Ranked) (hsize : u.size = nodes.size) :
    Closes nodes u (saturate nodes u) :=
  .of_forall fun _ hR hwithin => saturate_spec hR hu hsize hwithin

end Pairs

end Congruence

end StraightLine
