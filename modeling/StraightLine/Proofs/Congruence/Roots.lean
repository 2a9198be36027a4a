import Mathlib.Data.Finset.Card
import Mathlib.Data.Finset.Range
import StraightLine.Congruence.UnionFind

/-!
# Roots — what `find` and `union` do to the classes

The rank grows along every parent pointer, so each path ends at a root, and it ends within as many
steps as there are elements.

* `UnionFind.Ranked` — the invariant;
* `UnionFind.LeadsTo` — a path of parent pointers to a root, with its length;
* `UnionFind.rootOf` — the root of an element, which tells the classes apart;
* `rootOf_find`, `findAll_spec` — looking for roots moves no element to another class;
* `UnionFind.Joins` — one root absorbs another; `joins_union` — what a union does.
-/

namespace StraightLine

namespace Congruence

namespace UnionFind

/-! ## Parents and ranks after an update -/

theorem parentOf_of_size_le {u : UnionFind} {x : Nat} (h : u.size ≤ x) : u.parentOf x = x := by
  simp [parentOf, Array.getD_eq_getD_getElem?, Array.getElem?_eq_none h]

theorem lt_size_of_parentOf_ne {u : UnionFind} {x : Nat} (h : u.parentOf x ≠ x) : x < u.size := by
  by_contra hx
  exact h (parentOf_of_size_le (Nat.le_of_not_lt hx))

theorem parentOf_setParent {u : UnionFind} {x p : Nat} (hx : x < u.size) (z : Nat) :
    (u.setParent x p).parentOf z = if z = x then p else u.parentOf z := by
  have hx' : x < u.parent.size := hx
  by_cases hz : z = x
  · simp [setParent, parentOf, Array.getD_eq_getD_getElem?, hz, hx']
  · have hz' : x ≠ z := fun e => hz e.symm
    simp [setParent, parentOf, Array.getD_eq_getD_getElem?, hz, hz']

@[simp]
theorem rankOf_setParent (u : UnionFind) (x p z : Nat) :
    (u.setParent x p).rankOf z = u.rankOf z :=
  rfl

@[simp]
theorem parentOf_setRank (u : UnionFind) (x r z : Nat) :
    (u.setRank x r).parentOf z = u.parentOf z :=
  rfl

theorem rankOf_setRank {u : UnionFind} {x r : Nat} (hx : x < u.rank.size) (z : Nat) :
    (u.setRank x r).rankOf z = if z = x then r else u.rankOf z := by
  by_cases hz : z = x
  · simp [setRank, rankOf, Array.getD_eq_getD_getElem?, hz, hx]
  · have hz' : x ≠ z := fun e => hz e.symm
    simp [setRank, rankOf, Array.getD_eq_getD_getElem?, hz, hz']

/-- A new element points to itself, as it did when it was not there. -/
@[simp]
theorem parentOf_push (u : UnionFind) (x : Nat) : u.push.2.parentOf x = u.parentOf x := by
  simp only [parentOf, push, Array.getD_eq_getD_getElem?, Array.getElem?_push]
  split
  case isTrue h =>
    simp [h]
  case isFalse =>
    rfl

/-! ## The invariant -/

structure Ranked (u : UnionFind) : Prop where
  rank_size : u.rank.size = u.size
  parentOf_lt : ∀ x < u.size, u.parentOf x < u.size
  rankOf_lt : ∀ x, u.parentOf x ≠ x → u.rankOf x < u.rankOf (u.parentOf x)

/-- Following parents reaches the root `r` from `x` in `n` steps. -/
inductive LeadsTo (u : UnionFind) : Nat → Nat → Nat → Prop where
  | root {x : Nat} (h : u.parentOf x = x) : LeadsTo u 0 x x
  | step {n x r : Nat} (h : u.parentOf x ≠ x) (next : LeadsTo u n (u.parentOf x) r) :
      LeadsTo u (n + 1) x r

namespace LeadsTo

variable {u : UnionFind} {m n x r s : Nat}

theorem isRoot (h : LeadsTo u n x r) : u.parentOf r = r := by
  induction h with
  | root h =>
      exact h
  | step _ _ ih =>
      exact ih

theorem unique (h : LeadsTo u m x r) (h' : LeadsTo u n x s) : r = s := by
  induction h generalizing n with
  | root h =>
      cases h' with
      | root _ =>
          rfl
      | step h₁ _ =>
          exact absurd h h₁
  | step h _ ih =>
      cases h' with
      | root h₁ =>
          exact absurd h₁ h
      | step _ next =>
          exact ih next

theorem rankOf_le (hu : u.Ranked) (h : LeadsTo u n x r) : u.rankOf x ≤ u.rankOf r := by
  induction h with
  | root _ =>
      exact Nat.le_refl _
  | step h _ ih =>
      exact Nat.le_trans (Nat.le_of_lt (hu.rankOf_lt _ h)) ih

theorem lt_size (hu : u.Ranked) (h : LeadsTo u n x r) (hx : x < u.size) : r < u.size := by
  induction h with
  | root _ =>
      exact hx
  | step _ _ ih =>
      exact ih (hu.parentOf_lt _ hx)

end LeadsTo

/-- The elements of higher rank. -/
def above (u : UnionFind) (x : Nat) : Finset Nat :=
  (Finset.range u.size).filter fun y => u.rankOf x < u.rankOf y

theorem card_above_parentOf_lt {u : UnionFind} (hu : u.Ranked) {x : Nat} (h : u.parentOf x ≠ x) :
    (u.above (u.parentOf x)).card < (u.above x).card := by
  have hrank := hu.rankOf_lt x h
  have hlt : u.parentOf x < u.size := hu.parentOf_lt x (lt_size_of_parentOf_ne h)
  refine Finset.card_lt_card (Finset.ssubset_iff_subset_ne.2 ⟨?_, ?_⟩)
  · intro y hy
    simp only [above, Finset.mem_filter] at hy ⊢
    exact ⟨hy.1, Nat.lt_trans hrank hy.2⟩
  · -- the parent itself has a higher rank than the child, but no higher one than itself
    intro heq
    have hmem : u.parentOf x ∈ u.above x := by
      simpa [above] using ⟨hlt, hrank⟩
    rw [← heq] at hmem
    simp [above] at hmem

/-- Ranks grow along a path, so it is no longer than the number of elements of higher rank. -/
theorem exists_leadsTo {u : UnionFind} (hu : u.Ranked) (x : Nat) :
    ∃ n r, n ≤ u.size ∧ LeadsTo u n x r := by
  suffices h : ∃ n r, n ≤ (u.above x).card ∧ LeadsTo u n x r by
    rcases h with ⟨n, r, hn, hpath⟩
    have hle : n ≤ u.size :=
      calc
        n ≤ (u.above x).card := hn
        _ ≤ (Finset.range u.size).card := Finset.card_filter_le _ _
        _ = u.size := Finset.card_range u.size
    exact ⟨n, r, hle, hpath⟩
  -- by induction on the number of elements of higher rank, which falls at every step
  induction hk : (u.above x).card using Nat.strong_induction_on generalizing x with
  | _ k ih =>
      by_cases h : u.parentOf x = x
      · exact ⟨0, x, Nat.zero_le _, .root h⟩
      · have hlt := card_above_parentOf_lt hu h
        rw [hk] at hlt
        rcases ih _ hlt (u.parentOf x) rfl with ⟨n, r, hn, hpath⟩
        exact ⟨n + 1, r, Nat.lt_of_le_of_lt hn hlt, .step h hpath⟩

/-! ## Redirecting an element to its root -/

section Redirect

variable {u : UnionFind} {n m x r z s : Nat}

theorem Ranked.setParent (hu : u.Ranked) (hx : x < u.size) (hr : r < u.size)
    (hrank : u.rankOf x < u.rankOf r) : (u.setParent x r).Ranked where
  rank_size := by
    rw [size_setParent]
    exact hu.rank_size
  parentOf_lt := by
    intro y hy
    rw [parentOf_setParent hx]
    split
    · simpa using hr
    · simpa using hu.parentOf_lt y (by simpa using hy)
  rankOf_lt := by
    intro y hy
    rw [parentOf_setParent hx] at hy ⊢
    by_cases h : y = x
    · simpa [h] using hrank
    · simp only [h, if_false] at hy
      simpa [h] using hu.rankOf_lt y hy

theorem LeadsTo.setParent (hxr : LeadsTo u n x r) (hx : u.parentOf x ≠ x)
    (h : LeadsTo u m z s) : ∃ k, LeadsTo (u.setParent x r) k z s := by
  have hlt := lt_size_of_parentOf_ne hx
  have hne : r ≠ x := by
    rintro rfl
    exact hx hxr.isRoot
  -- the new pointer of `x` skips to a root that is not touched
  have hroot : LeadsTo (u.setParent x r) 0 r r := by
    refine .root ?_
    simpa [parentOf_setParent hlt, hne] using hxr.isRoot
  induction h with
  | @root z h =>
      have hzx : z ≠ x := by
        rintro rfl
        exact hx h
      exact ⟨0, .root (by simpa [parentOf_setParent hlt, hzx] using h)⟩
  | @step m z s h next ih =>
      by_cases hzx : z = x
      · -- the path from `x` is now a single step
        subst hzx
        have hs : r = s := hxr.unique (.step h next)
        subst hs
        have hpar : (u.setParent z r).parentOf z = r := by
          simp [parentOf_setParent hlt]
        refine ⟨1, .step (by simpa [hpar] using hne) ?_⟩
        simpa [hpar] using hroot
      · rcases ih with ⟨k, hk⟩
        have hpar : (u.setParent x r).parentOf z = u.parentOf z := by
          simp [parentOf_setParent hlt, hzx]
        refine ⟨k + 1, .step (by simpa [hpar] using h) ?_⟩
        simpa [hpar] using hk

end Redirect

/-- A search with enough steps answers with the root, and every path keeps its end. -/
theorem findWithin_spec {steps : Nat} {u : UnionFind} {n x r : Nat} (hu : u.Ranked)
    (h : LeadsTo u n x r) (hn : n ≤ steps) :
    (findWithin steps u x).1 = r ∧ (findWithin steps u x).2.Ranked ∧
      (findWithin steps u x).2.rank = u.rank ∧
      ∀ m z s, LeadsTo u m z s → ∃ k, LeadsTo (findWithin steps u x).2 k z s := by
  -- the path to the root is as long as the recursion is deep
  induction steps generalizing n x with
  | zero =>
      cases h with
      | root _ =>
          exact ⟨rfl, hu, rfl, fun m _ _ hz => ⟨m, hz⟩⟩
      | step _ _ =>
          exact absurd hn (Nat.not_succ_le_zero _)
  | succ steps ih =>
      cases h with
      | root h =>
          have hfind : findWithin (steps + 1) u r = (r, u) := by
            simp [findWithin, h]
          rw [hfind]
          exact ⟨rfl, hu, rfl, fun m _ _ hz => ⟨m, hz⟩⟩
      | step h next =>
          rcases ih next (Nat.le_of_succ_le_succ hn) with ⟨hroot, hranked, hrank, hkeep⟩
          simp only [findWithin, h, if_false]
          rw [hroot]
          generalize findWithin steps u (u.parentOf x) = found at hroot hranked hrank hkeep
          have hlt : x < u.size := lt_size_of_parentOf_ne h
          have hxr : u.rankOf x < u.rankOf r :=
            calc
              u.rankOf x < u.rankOf (u.parentOf x) := hu.rankOf_lt x h
              _ ≤ u.rankOf r := next.rankOf_le hu
          have hrlt : r < u.size := next.lt_size hu (hu.parentOf_lt x hlt)
          have hrankOf : ∀ z, found.2.rankOf z = u.rankOf z := by
            intro z
            simp [rankOf, hrank]
          have hsize : found.2.size = u.size := by
            rw [← hranked.rank_size, hrank, hu.rank_size]
          rcases hkeep _ _ _ (.step h next) with ⟨k, hk⟩
          -- `x` has not become a root, since the root has a higher rank
          have hx' : found.2.parentOf x ≠ x := by
            intro hx
            have hrx : x = r := (LeadsTo.root hx).unique hk
            rw [hrx] at hxr
            exact Nat.lt_irrefl _ hxr
          refine ⟨rfl, ?_, ?_, ?_⟩
          · exact hranked.setParent (by simpa [hsize] using hlt) (by simpa [hsize] using hrlt)
              (by simpa [hrankOf] using hxr)
          · simpa [UnionFind.setParent] using hrank
          · intro m z s hz
            rcases hkeep m z s hz with ⟨j, hj⟩
            exact hk.setParent hx' hj

/-! ## Roots -/

/-- The root of an element; two elements are in one class when they have one root. -/
def rootOf (u : UnionFind) (x : Nat) : Nat :=
  (u.find x).1

theorem rootOf_eq_iff {u : UnionFind} (hu : u.Ranked) {x r : Nat} :
    u.rootOf x = r ↔ ∃ n, LeadsTo u n x r := by
  rcases exists_leadsTo hu x with ⟨n, s, hn, hs⟩
  have hroot : u.rootOf x = s := (findWithin_spec hu hs hn).1
  constructor
  · rintro rfl
    exact ⟨n, hroot ▸ hs⟩
  · rintro ⟨m, hm⟩
    exact hroot.trans (hs.unique hm)

theorem leadsTo_rootOf {u : UnionFind} (hu : u.Ranked) (x : Nat) :
    ∃ n, LeadsTo u n x (u.rootOf x) :=
  (rootOf_eq_iff hu).1 rfl

theorem rootOf_eq_self {u : UnionFind} (hu : u.Ranked) {x : Nat} (h : u.parentOf x = x) :
    u.rootOf x = x :=
  (rootOf_eq_iff hu).2 ⟨0, .root h⟩

theorem parentOf_rootOf {u : UnionFind} (hu : u.Ranked) (x : Nat) :
    u.parentOf (u.rootOf x) = u.rootOf x := by
  rcases leadsTo_rootOf hu x with ⟨_, h⟩
  exact h.isRoot

theorem rootOf_rootOf {u : UnionFind} (hu : u.Ranked) (x : Nat) :
    u.rootOf (u.rootOf x) = u.rootOf x :=
  rootOf_eq_self hu (parentOf_rootOf hu x)

theorem rootOf_lt {u : UnionFind} (hu : u.Ranked) {x : Nat} (hx : x < u.size) :
    u.rootOf x < u.size := by
  rcases leadsTo_rootOf hu x with ⟨_, h⟩
  exact h.lt_size hu hx

/-! ## Looking for roots -/

theorem Ranked.find {u : UnionFind} (hu : u.Ranked) (x : Nat) : (u.find x).2.Ranked := by
  rcases exists_leadsTo hu x with ⟨n, r, hn, h⟩
  exact (findWithin_spec hu h hn).2.1

theorem rootOf_find {u : UnionFind} (hu : u.Ranked) (x z : Nat) :
    (u.find x).2.rootOf z = u.rootOf z := by
  rcases exists_leadsTo hu x with ⟨n, r, hn, h⟩
  rcases leadsTo_rootOf hu z with ⟨m, hz⟩
  exact (rootOf_eq_iff (hu.find x)).2 ((findWithin_spec hu h hn).2.2.2 m z _ hz)

theorem findAll_spec {u : UnionFind} (hu : u.Ranked) (xs : List Nat) :
    (u.findAll xs).1 = xs.map u.rootOf ∧ (u.findAll xs).2.Ranked ∧
      (u.findAll xs).2.size = u.size ∧ ∀ z, (u.findAll xs).2.rootOf z = u.rootOf z := by
  induction xs generalizing u with
  | nil =>
      exact ⟨rfl, hu, rfl, fun _ => rfl⟩
  | cons x xs ih =>
      rcases ih (hu.find x) with ⟨hroots, hranked, hsize, hroot⟩
      refine ⟨?_, hranked, ?_, ?_⟩
      · have hrest : xs.map (u.find x).2.rootOf = xs.map u.rootOf := by
          simp [rootOf_find hu]
        simp only [findAll, List.map_cons, hroots, hrest]
        rfl
      · simpa [findAll] using hsize
      · intro z
        simpa [findAll, rootOf_find hu] using hroot z

/-! ## Joining -/

/-- One of two roots absorbs the other: the elements below `absorbed` move to `kept`. -/
structure Joins (u v : UnionFind) (kept absorbed : Nat) : Prop where
  ranked : v.Ranked
  size : v.size = u.size
  rootOf : ∀ z, v.rootOf z = if u.rootOf z = absorbed then kept else u.rootOf z

/-- The classes of the two roots become one class, and no others. -/
theorem Joins.rootOf_eq_iff {u v : UnionFind} {kept absorbed : Nat} (h : Joins u v kept absorbed)
    (i j : Nat) : v.rootOf i = v.rootOf j ↔ u.rootOf i = u.rootOf j ∨
      (u.rootOf i = kept ∧ u.rootOf j = absorbed) ∨
        (u.rootOf i = absorbed ∧ u.rootOf j = kept) := by
  rw [h.rootOf, h.rootOf]
  by_cases hi : u.rootOf i = absorbed
  · by_cases hj : u.rootOf j = absorbed
    · simp [hi, hj]
    · have hj' : absorbed ≠ u.rootOf j := fun e => hj e.symm
      have hsymm : kept = u.rootOf j ↔ u.rootOf j = kept := eq_comm
      simp [hi, hj, hj', hsymm]
  · by_cases hj : u.rootOf j = absorbed
    · simp [hi, hj]
    · simp [hi, hj]

/-- Hanging the root `a` below the root `b`, where the ranks of the result are in order. -/
theorem joins_of_parentOf {u v : UnionFind} {a b : Nat} (hu : u.Ranked) (hv : v.Ranked)
    (hsize : v.size = u.size) (ha : u.parentOf a = a) (hb : u.parentOf b = b) (hne : a ≠ b)
    (hpar : ∀ z, v.parentOf z = if z = a then b else u.parentOf z) : Joins u v b a where
  ranked := hv
  size := hsize
  rootOf := by
    intro z
    -- a path that ended at `a` has one step more, every other path is as it was
    have hbroot : LeadsTo v 0 b b := .root (by simp [hpar, hb])
    rcases leadsTo_rootOf hu z with ⟨n, hz⟩
    rw [rootOf_eq_iff hv]
    generalize u.rootOf z = r at hz
    induction hz with
    | @root z h =>
        by_cases hza : z = a
        · subst hza
          have hpb : v.parentOf z = b := by
            simp [hpar]
          refine ⟨1, ?_⟩
          rw [if_pos rfl]
          exact .step (by rw [hpb]; exact hne.symm) (hpb ▸ hbroot)
        · refine ⟨0, ?_⟩
          rw [if_neg hza]
          exact .root (by simpa [hpar, hza] using h)
    | @step n z r h next ih =>
        have hza : z ≠ a := by
          rintro rfl
          exact h ha
        have hpz : v.parentOf z = u.parentOf z := by
          simp [hpar, hza]
        rcases ih with ⟨k, hk⟩
        exact ⟨k + 1, .step (by rwa [hpz]) (hpz ▸ hk)⟩

/-- Hanging the root `b` below the root `a` keeps the ranks in order if the rank of `a` is raised
above that of `b`. -/
theorem Ranked.raise {u : UnionFind} (hu : u.Ranked) {a b : Nat} (ha : a < u.size)
    (hb : b < u.size) (haroot : u.parentOf a = a) (hne : a ≠ b) (hle : u.rankOf b ≤ u.rankOf a) :
    ((u.setParent b a).setRank a (u.rankOf a + 1)).Ranked := by
  have hpar := parentOf_setParent (u := u) (p := a) hb
  have hrank : ∀ z, ((u.setParent b a).setRank a (u.rankOf a + 1)).rankOf z =
      if z = a then u.rankOf a + 1 else u.rankOf z := by
    intro z
    have halt : a < (u.setParent b a).rank.size := by
      simpa [UnionFind.setParent, hu.rank_size] using ha
    simpa using rankOf_setRank halt z
  refine ⟨?_, ?_, ?_⟩
  · simpa [UnionFind.setParent, setRank, size] using hu.rank_size
  · intro z hz
    have hz' : z < u.size := by
      simpa using hz
    simp only [parentOf_setRank, hpar, size_setRank, size_setParent]
    split
    · exact ha
    · exact hu.parentOf_lt z hz'
  · intro z hz
    simp only [parentOf_setRank, hpar] at hz ⊢
    rw [hrank, hrank]
    by_cases hzb : z = b
    · simp only [hzb, hne.symm, if_true, if_false]
      exact Nat.lt_succ_of_le hle
    · simp only [hzb, if_false] at hz ⊢
      have hlt := hu.rankOf_lt z hz
      have hza : z ≠ a := by
        rintro rfl
        exact hz haroot
      simp only [hza, if_false]
      -- the parent may be `a`, whose rank has only grown
      by_cases hpa : u.parentOf z = a
      · simp only [hpa, if_true]
        exact Nat.lt_succ_of_lt (hpa ▸ hlt)
      · simpa [hpa] using hlt

section Link

variable {u : UnionFind} {a b : Nat}

/-- A root of higher rank absorbs the other one. -/
theorem joins_link_of_lt (hu : u.Ranked) (ha : a < u.size) (hb : b < u.size)
    (haroot : u.parentOf a = a) (hbroot : u.parentOf b = b) (hne : a ≠ b)
    (hab : u.rankOf a < u.rankOf b) : Joins u (u.link a b) b a := by
  have hlink : u.link a b = u.setParent a b := if_pos hab
  rw [hlink]
  exact joins_of_parentOf hu (hu.setParent ha hb hab) (size_setParent u a b) haroot hbroot hne
    (parentOf_setParent ha)

/-- Otherwise the first root absorbs the second one. -/
theorem joins_link_of_le (hu : u.Ranked) (ha : a < u.size) (hb : b < u.size)
    (haroot : u.parentOf a = a) (hbroot : u.parentOf b = b) (hne : a ≠ b)
    (hba : u.rankOf b ≤ u.rankOf a) : Joins u (u.link a b) a b := by
  unfold link
  simp only [Nat.not_lt.2 hba, if_false]
  by_cases hlt : u.rankOf b < u.rankOf a
  · simp only [hlt, if_true]
    exact joins_of_parentOf hu (hu.setParent hb ha hlt) (size_setParent u b a) hbroot haroot
      hne.symm (parentOf_setParent hb)
  · simp only [hlt, if_false]
    exact joins_of_parentOf hu (hu.raise ha hb haroot hne hba) (by simp)
      hbroot haroot hne.symm (by simpa using parentOf_setParent hb)

/-- Of two different roots one absorbs the other. -/
theorem joins_link (hu : u.Ranked) (ha : a < u.size) (hb : b < u.size)
    (haroot : u.parentOf a = a) (hbroot : u.parentOf b = b) (hne : a ≠ b) :
    Joins u (u.link a b) a b ∨ Joins u (u.link a b) b a := by
  rcases Nat.lt_or_ge (u.rankOf a) (u.rankOf b) with hab | hba
  · exact Or.inr (joins_link_of_lt hu ha hb haroot hbroot hne hab)
  · exact Or.inl (joins_link_of_le hu ha hb haroot hbroot hne hba)

end Link

/-- The two searches of a union may redirect elements, but they move none to another class. -/
theorem rootOf_find_find {u : UnionFind} (hu : u.Ranked) (x y z : Nat) :
    ((u.find x).2.find y).2.rootOf z = u.rootOf z := by
  rw [rootOf_find (hu.find x), rootOf_find hu]

theorem union_eq {u : UnionFind} (hu : u.Ranked) (x y : Nat) :
    u.union x y =
      if u.rootOf x = u.rootOf y then (false, ((u.find x).2.find y).2)
      else (true, ((u.find x).2.find y).2.link (u.rootOf x) (u.rootOf y)) := by
  have hx : (u.find x).1 = u.rootOf x := rfl
  have hy : ((u.find x).2.find y).1 = u.rootOf y := rootOf_find hu x y
  simp only [union, hx, hy]

/-- A union leaves the classes alone if the elements are in one class, and otherwise joins their
two classes and no others. -/
theorem joins_union {u : UnionFind} (hu : u.Ranked) {x y : Nat} (hx : x < u.size)
    (hy : y < u.size) :
    ((u.union x y).1 = false ∧ u.rootOf x = u.rootOf y ∧ (u.union x y).2.Ranked ∧
        ∀ z, (u.union x y).2.rootOf z = u.rootOf z) ∨
      ((u.union x y).1 = true ∧ u.rootOf x ≠ u.rootOf y ∧
        (Joins u (u.union x y).2 (u.rootOf x) (u.rootOf y) ∨
          Joins u (u.union x y).2 (u.rootOf y) (u.rootOf x))) := by
  have hv := (hu.find x).find y
  have hroot := rootOf_find_find hu x y
  have hsize : ((u.find x).2.find y).2.size = u.size := by
    simp
  rw [union_eq hu]
  -- `v` has the classes of `u`
  generalize ((u.find x).2.find y).2 = v at hv hroot hsize
  by_cases h : u.rootOf x = u.rootOf y
  · left
    simp only [h, if_true]
    exact ⟨trivial, trivial, hv, hroot⟩
  · right
    simp only [h, if_false]
    have hlt : ∀ z < u.size, u.rootOf z < v.size := by
      intro z hz
      rw [hsize]
      exact rootOf_lt hu hz
    have hpar : ∀ z, v.parentOf (u.rootOf z) = u.rootOf z := by
      intro z
      rw [← hroot]
      exact parentOf_rootOf hv z
    have hjoins : ∀ {w : UnionFind} {a b : Nat}, Joins v w a b → Joins u w a b := by
      intro w a b hw
      refine ⟨hw.ranked, hw.size.trans hsize, ?_⟩
      intro z
      rw [hw.rootOf, hroot]
    rcases joins_link hv (hlt x hx) (hlt y hy) (hpar x) (hpar y) h with hw | hw
    · exact ⟨trivial, h, Or.inl (hjoins hw)⟩
    · exact ⟨trivial, h, Or.inr (hjoins hw)⟩

end UnionFind

end Congruence

end StraightLine
