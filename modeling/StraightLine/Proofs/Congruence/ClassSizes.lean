import Mathlib.Algebra.Group.Nat.Defs
import StraightLine.Proofs.Congruence.Roots

/-!
# ClassSizes — a root of high rank has many elements below it

A rank is raised only where two roots of equal rank meet, and the class of the new root then holds
the elements of both. So a class has at least two to the power of its root's rank elements, ranks
stay small, and with them the paths that a search walks.

* `UnionFind.members` — the elements below a root;
* `UnionFind.Populated` — the invariant, kept by `push`, `find` and `union`;
* `UnionFind.find_eq` — a search is the recursion on parents, without a bound on its steps;
* `UnionFind.Call`, `UnionFind.after?` — calls one after another;
* `UnionFind.Finds`, `UnionFind.Merges` — what a search and a union do;
* `UnionFind.classes_after` — all of it after any calls.
-/

namespace StraightLine

namespace Congruence

namespace UnionFind

/-! ## Searches without a bound -/

section Search

variable {u : UnionFind} {n x r : Nat}

/-- A rank is added at every step of a path. -/
theorem LeadsTo.length_add_rankOf_le (hu : u.Ranked) (h : LeadsTo u n x r) :
    n + u.rankOf x ≤ u.rankOf r := by
  induction h with
  | root _ =>
      simp
  | step h _ ih =>
      have hlt := hu.rankOf_lt _ h
      omega

theorem findWithin_of_leadsTo (h : LeadsTo u n x r) {steps steps' : Nat} (hn : n ≤ steps)
    (hn' : n ≤ steps') : findWithin steps u x = findWithin steps' u x := by
  induction h generalizing steps steps' with
  | @root x h =>
      cases steps <;> cases steps' <;> simp [findWithin, h]
  | step h _ ih =>
      -- the path has a step, so neither bound is zero
      rcases Nat.exists_eq_add_of_le hn with ⟨spare, rfl⟩
      rcases Nat.exists_eq_add_of_le hn' with ⟨spare', rfl⟩
      have hnext := ih (Nat.le_add_right _ spare) (Nat.le_add_right _ spare')
      simp only [Nat.succ_add, findWithin, h, if_false, hnext]

/-- The bound on the steps is never met: a search answers with the root of the parent's search, and
hangs the element below it. -/
theorem find_eq (hu : u.Ranked) (x : Nat) :
    u.find x =
      if u.parentOf x = x then (x, u)
      else
        let (root, v) := u.find (u.parentOf x)
        (root, v.setParent x root) := by
  by_cases h : u.parentOf x = x
  · cases hsize : u.size <;> simp [find, hsize, findWithin, h]
  · have hx : x < u.size := lt_size_of_parentOf_ne h
    rcases Nat.exists_eq_succ_of_ne_zero (Nat.ne_zero_of_lt hx) with ⟨steps, hsteps⟩
    rcases exists_leadsTo hu x with ⟨n, r, hn, hpath⟩
    cases hpath with
    | root h' =>
        exact absurd h' h
    | step _ next =>
        rw [hsteps] at hn
        have hnext : findWithin steps u (u.parentOf x) = u.find (u.parentOf x) :=
          findWithin_of_leadsTo next (by omega) (by omega)
        have hfind : u.find x = findWithin (steps + 1) u x := by
          rw [find, hsteps]
        rw [hfind]
        simp only [findWithin, h, if_false, hnext]

end Search

/-! ## A new element -/

section Push

variable {u : UnionFind}

@[simp]
theorem rankOf_push (u : UnionFind) (x : Nat) : u.push.2.rankOf x = u.rankOf x := by
  simp only [rankOf, push, Array.getD_eq_getD_getElem?, Array.getElem?_push]
  split
  case isTrue h =>
    simp [h]
  case isFalse =>
    rfl

theorem Ranked.push (hu : u.Ranked) : u.push.2.Ranked where
  rank_size := by
    simpa [UnionFind.push, size] using hu.rank_size
  parentOf_lt := by
    intro z hz
    rw [parentOf_push, size_push]
    rcases Nat.lt_or_ge z u.size with hlt | hge
    · exact Nat.lt_succ_of_lt (hu.parentOf_lt z hlt)
    · rw [parentOf_of_size_le hge]
      exact size_push u ▸ hz
  rankOf_lt := by
    intro z hz
    rw [parentOf_push] at hz ⊢
    rw [rankOf_push, rankOf_push]
    exact hu.rankOf_lt z hz

/-- A new element adds no step to any path. -/
theorem rootOf_push (hu : u.Ranked) (z : Nat) : u.push.2.rootOf z = u.rootOf z := by
  rcases leadsTo_rootOf hu z with ⟨n, hpath⟩
  refine (UnionFind.rootOf_eq_iff hu.push).2 ⟨n, ?_⟩
  generalize u.rootOf z = s at hpath
  induction hpath with
  | root h =>
      exact .root (by rwa [parentOf_push])
  | step h _ ih =>
      exact .step (by rwa [parentOf_push]) (by rwa [parentOf_push])

end Push

/-! ## Members of a class -/

theorem rootOf_eq_self_iff {u : UnionFind} (hu : u.Ranked) {x : Nat} :
    u.rootOf x = x ↔ u.parentOf x = x := by
  constructor
  · intro h
    rw [← h]
    exact parentOf_rootOf hu x
  · exact rootOf_eq_self hu

/-- The elements below a root. -/
def members (u : UnionFind) (r : Nat) : Finset Nat :=
  (Finset.range u.size).filter fun z => u.rootOf z = r

theorem mem_members {u : UnionFind} {r z : Nat} : z ∈ u.members r ↔ z < u.size ∧ u.rootOf z = r := by
  simp [members]

theorem card_members_le (u : UnionFind) (r : Nat) : (u.members r).card ≤ u.size := by
  calc
    (u.members r).card ≤ (Finset.range u.size).card := Finset.card_filter_le _ _
    _ = u.size := Finset.card_range u.size

section Joins

variable {u v : UnionFind} {kept absorbed : Nat}

theorem Joins.members_kept (h : Joins u v kept absorbed) :
    v.members kept = u.members kept ∪ u.members absorbed := by
  ext z
  simp only [Finset.mem_union, mem_members, h.size, h.rootOf]
  by_cases hz : u.rootOf z = absorbed
  · simpa [hz] using fun hlt _ => hlt
  · simp [hz]

theorem Joins.members_of_ne (h : Joins u v kept absorbed) {r : Nat} (hkept : r ≠ kept)
    (habsorbed : r ≠ absorbed) : v.members r = u.members r := by
  ext z
  simp only [mem_members, h.size, h.rootOf]
  by_cases hz : u.rootOf z = absorbed
  · simp [hz, hkept.symm, habsorbed.symm]
  · simp [hz]

theorem Joins.card_members_kept (h : Joins u v kept absorbed) (hne : kept ≠ absorbed) :
    (v.members kept).card = (u.members kept).card + (u.members absorbed).card := by
  rw [h.members_kept]
  refine Finset.card_union_of_disjoint (Finset.disjoint_left.2 ?_)
  intro z hkept habsorbed
  exact hne ((mem_members.1 hkept).2.symm.trans (mem_members.1 habsorbed).2)

end Joins

/-! ## Ranks after a search and a link -/

theorem rankOf_find {u : UnionFind} (hu : u.Ranked) (x z : Nat) :
    (u.find x).2.rankOf z = u.rankOf z := by
  rcases exists_leadsTo hu x with ⟨n, r, hn, h⟩
  have hrank : (u.find x).2.rank = u.rank := (findWithin_spec hu h hn).2.2.1
  rw [rankOf, rankOf, hrank]

theorem rankOf_link_of_ne {u : UnionFind} {a b : Nat} (h : u.rankOf a ≠ u.rankOf b) (z : Nat) :
    (u.link a b).rankOf z = u.rankOf z := by
  unfold link
  rcases Nat.lt_or_gt_of_ne h with hlt | hgt
  · simp [hlt]
  · simp [hgt, Nat.lt_asymm hgt]

theorem rankOf_link_of_eq {u : UnionFind} (hu : u.Ranked) {a b : Nat} (ha : a < u.size)
    (h : u.rankOf a = u.rankOf b) (z : Nat) :
    (u.link a b).rankOf z = if z = a then u.rankOf a + 1 else u.rankOf z := by
  have halt : a < (u.setParent b a).rank.size := by
    simpa [setParent, hu.rank_size] using ha
  simpa [link, h] using rankOf_setRank halt z

/-! ## The invariant -/

/-- The class of a root has two to the power of its rank elements, or more. -/
structure Populated (u : UnionFind) : Prop where
  ranked : u.Ranked
  pow_rankOf_le : ∀ r < u.size, u.parentOf r = r → 2 ^ u.rankOf r ≤ (u.members r).card

namespace Populated

variable {u v : UnionFind} {a b kept absorbed : Nat}

theorem empty : Populated UnionFind.empty where
  ranked :=
    { rank_size := rfl
      parentOf_lt := fun _ hx => absurd hx (Nat.not_lt_zero _)
      rankOf_lt := fun x hx => absurd (parentOf_of_size_le (Nat.zero_le x)) hx }
  pow_rankOf_le := fun _ hr => absurd hr (Nat.not_lt_zero _)

theorem push (hu : u.Populated) : u.push.2.Populated where
  ranked := hu.ranked.push
  pow_rankOf_le := by
    intro r hr hpar
    rw [size_push] at hr
    rw [parentOf_push] at hpar
    rw [rankOf_push]
    rcases Nat.lt_succ_iff_lt_or_eq.1 hr with hlt | rfl
    · refine Nat.le_trans (hu.pow_rankOf_le r hlt hpar) (Finset.card_le_card ?_)
      intro z hz
      rcases mem_members.1 hz with ⟨hz, hzr⟩
      refine mem_members.2 ⟨?_, (rootOf_push hu.ranked z).trans hzr⟩
      rw [size_push]
      exact Nat.lt_succ_of_lt hz
    · -- the new element has rank zero and is its own class
      have hzero : u.rankOf u.size = 0 := by
        simp [rankOf, Array.getD_eq_getD_getElem?, ← hu.ranked.rank_size]
      have hroot : u.push.2.rootOf u.size = u.size :=
        (rootOf_push hu.ranked _).trans (rootOf_eq_self hu.ranked hpar)
      rw [hzero]
      exact Finset.card_pos.2 ⟨_, mem_members.2 ⟨by simp, hroot⟩⟩

theorem find (hu : u.Populated) (x : Nat) : (u.find x).2.Populated where
  ranked := hu.ranked.find x
  pow_rankOf_le := by
    have hroot := rootOf_find hu.ranked x
    intro r hr hpar
    have hmembers : (u.find x).2.members r = u.members r := by
      simp only [members, size_find, hroot]
    rw [← rootOf_eq_self_iff (hu.ranked.find x), hroot, rootOf_eq_self_iff hu.ranked] at hpar
    rw [hmembers, rankOf_find hu.ranked]
    exact hu.pow_rankOf_le r (size_find u x ▸ hr) hpar

/-- Where one root absorbs another, only the one that stays can get a new rank, and its class has
the members of both. -/
theorem joins (hu : u.Populated) (h : Joins u v kept absorbed) (hne : kept ≠ absorbed)
    (hroot : u.parentOf kept = kept) (hothers : ∀ r, r ≠ kept → v.rankOf r = u.rankOf r)
    (hkept : 2 ^ v.rankOf kept ≤ (u.members kept).card + (u.members absorbed).card) :
    v.Populated := by
  refine ⟨h.ranked, ?_⟩
  intro r hr hpar
  by_cases hrkept : r = kept
  · subst hrkept
    rwa [h.card_members_kept hne]
  · -- a root that did not absorb the other one was a root before, and was not absorbed
    have hself : v.rootOf r = r := rootOf_eq_self h.ranked hpar
    rw [h.rootOf] at hself
    split at hself
    · exact absurd hself.symm hrkept
    · next hr' =>
        have habsorbed : r ≠ absorbed := by
          rintro rfl
          exact hr' hself
        rw [hothers r hrkept, h.members_of_ne hrkept habsorbed]
        exact hu.pow_rankOf_le r (h.size ▸ hr) ((rootOf_eq_self_iff hu.ranked).1 hself)

theorem link (hu : u.Populated) (ha : a < u.size) (hb : b < u.size) (haroot : u.parentOf a = a)
    (hbroot : u.parentOf b = b) (hne : a ≠ b) : (u.link a b).Populated := by
  have hcarda := hu.pow_rankOf_le a ha haroot
  have hcardb := hu.pow_rankOf_le b hb hbroot
  rcases Nat.lt_trichotomy (u.rankOf a) (u.rankOf b) with hlt | heq | hgt
  · have hrank := rankOf_link_of_ne (Nat.ne_of_lt hlt)
    refine hu.joins (joins_link_of_lt hu.ranked ha hb haroot hbroot hne hlt) hne.symm hbroot
      (fun z _ => hrank z) ?_
    rw [hrank]
    exact Nat.le_add_right_of_le hcardb
  · have hrank := rankOf_link_of_eq hu.ranked ha heq
    refine hu.joins (joins_link_of_le hu.ranked ha hb haroot hbroot hne (Nat.le_of_eq heq.symm)) hne
      haroot (fun z hz => by simp [hrank, hz]) ?_
    -- two classes of equal rank are twice what the rank asks for
    calc
      2 ^ (u.link a b).rankOf a = 2 ^ u.rankOf a + 2 ^ u.rankOf b := by
        rw [hrank, if_pos rfl, Nat.pow_succ, ← heq, Nat.mul_two]
      _ ≤ (u.members a).card + (u.members b).card := Nat.add_le_add hcarda hcardb
  · have hrank := rankOf_link_of_ne (Nat.ne_of_gt hgt)
    refine hu.joins (joins_link_of_le hu.ranked ha hb haroot hbroot hne (Nat.le_of_lt hgt)) hne
      haroot (fun z _ => hrank z) ?_
    rw [hrank]
    exact Nat.le_add_right_of_le hcarda

theorem union (hu : u.Populated) {x y : Nat} (hx : x < u.size) (hy : y < u.size) :
    (u.union x y).2.Populated := by
  have hv : ((u.find x).2.find y).2.Populated := (hu.find x).find y
  have hroot := rootOf_find_find hu.ranked x y
  have hsize : ((u.find x).2.find y).2.size = u.size := by
    simp
  rw [union_eq hu.ranked]
  generalize ((u.find x).2.find y).2 = v at hv hroot hsize
  have hself : ∀ z, v.parentOf (u.rootOf z) = u.rootOf z := by
    intro z
    rw [← hroot]
    exact parentOf_rootOf hv.ranked z
  split
  · exact hv
  · next hne =>
      exact hv.link (hsize ▸ rootOf_lt hu.ranked hx) (hsize ▸ rootOf_lt hu.ranked hy) (hself x)
        (hself y) hne

/-- A structure of fewer than `2 ^ k` elements has ranks below `k`. -/
theorem rankOf_lt (hu : u.Populated) {k : Nat} (hsize : u.size < 2 ^ k) {x : Nat}
    (hx : x < u.size) : u.rankOf x < k := by
  rcases leadsTo_rootOf hu.ranked x with ⟨_, hpath⟩
  have hrank : u.rankOf x ≤ u.rankOf (u.rootOf x) := hpath.rankOf_le hu.ranked
  have hpow : 2 ^ u.rankOf (u.rootOf x) < 2 ^ k :=
    calc
      2 ^ u.rankOf (u.rootOf x) ≤ (u.members (u.rootOf x)).card :=
        hu.pow_rankOf_le _ (rootOf_lt hu.ranked hx) hpath.isRoot
      _ ≤ u.size := card_members_le u _
      _ < 2 ^ k := hsize
  exact Nat.lt_of_le_of_lt hrank ((Nat.pow_lt_pow_iff_right Nat.one_lt_two).1 hpow)

/-- The rank that two roots of equal rank lead to is below `k` as well. -/
theorem rankOf_succ_lt (hu : u.Populated) {k : Nat} (hsize : u.size < 2 ^ k) (ha : a < u.size)
    (hb : b < u.size) (haroot : u.parentOf a = a) (hbroot : u.parentOf b = b) (hne : a ≠ b)
    (heq : u.rankOf a = u.rankOf b) : u.rankOf a + 1 < k := by
  have hlinked := hu.link ha hb haroot hbroot hne
  have hrank : (u.link a b).rankOf a = u.rankOf a + 1 := by
    rw [rankOf_link_of_eq hu.ranked ha heq, if_pos rfl]
  rw [← hrank]
  exact hlinked.rankOf_lt (by rwa [size_link]) (by rwa [size_link])

end Populated

/-! ## Calls -/

inductive Call where
  | push
  | find (x : Nat)
  | union (x y : Nat)
  deriving DecidableEq, Repr

namespace Call

/-- The elements that a call is about. -/
def elements : Call → List Nat
  | push => []
  | find x => [x]
  | union x y => [x, y]

/-- The structure that a call leaves. -/
def run (u : UnionFind) : Call → UnionFind
  | push => u.push.2
  | find x => (u.find x).2
  | union x y => (u.union x y).2

end Call

/-- The structure after some calls. A call about an element that is not there has no answer, and
nothing comes after it. -/
def after? (u : UnionFind) : List Call → Option UnionFind
  | [] => some u
  | c :: rest => if ∀ x ∈ c.elements, x < u.size then (c.run u).after? rest else none

theorem Populated.run {u : UnionFind} (hu : u.Populated) {c : Call}
    (h : ∀ x ∈ c.elements, x < u.size) : (c.run u).Populated := by
  cases c with
  | push =>
      exact hu.push
  | find x =>
      exact hu.find x
  | union x y =>
      exact hu.union (h x (by simp [Call.elements])) (h y (by simp [Call.elements]))

theorem Populated.after? {u v : UnionFind} {calls : List Call} (hu : u.Populated)
    (h : u.after? calls = some v) : v.Populated := by
  induction calls generalizing u with
  | nil =>
      cases h
      exact hu
  | cons c rest ih =>
      unfold UnionFind.after? at h
      split at h
      · next hc =>
          exact ih (hu.run hc) h
      · cases h

/-- A search for `x` walks to a root within as many steps as the root's rank, it is the recursion on
parents, and it leaves the same elements together. -/
structure Finds (u : UnionFind) (x : Nat) : Prop where
  ends : ∃ n ≤ u.rankOf (u.find x).1, LeadsTo u n x (u.find x).1
  recursion : u.find x =
    if u.parentOf x = x then (x, u)
    else
      let (root, v) := u.find (u.parentOf x)
      (root, v.setParent x root)
  keeps : ∀ i j, (u.find x).2.rootOf i = (u.find x).2.rootOf j ↔ u.rootOf i = u.rootOf j

/-- A union of `x` and `y` says whether they were in different classes, and puts these two classes
together and no others. -/
structure Merges (u : UnionFind) (x y : Nat) : Prop where
  answer : (u.union x y).1 = true ↔ u.rootOf x ≠ u.rootOf y
  together : ∀ i j, (u.union x y).2.rootOf i = (u.union x y).2.rootOf j ↔
    u.rootOf i = u.rootOf j ∨ (u.rootOf i = u.rootOf x ∧ u.rootOf j = u.rootOf y) ∨
      (u.rootOf i = u.rootOf y ∧ u.rootOf j = u.rootOf x)

theorem Ranked.finds {u : UnionFind} (hu : u.Ranked) (x : Nat) : u.Finds x where
  ends := by
    rcases leadsTo_rootOf hu x with ⟨n, hpath⟩
    exact ⟨n, Nat.le_of_add_right_le (hpath.length_add_rankOf_le hu), hpath⟩
  recursion := find_eq hu x
  keeps := by
    intro i j
    rw [rootOf_find hu, rootOf_find hu]

theorem Ranked.merges {u : UnionFind} (hu : u.Ranked) {x y : Nat} (hx : x < u.size)
    (hy : y < u.size) : u.Merges x y := by
  rcases joins_union hu hx hy with ⟨hanswer, hsame, _, hroot⟩ | ⟨hanswer, hne, hjoins⟩
  · refine ⟨by simp [hanswer, hsame], ?_⟩
    intro i j
    -- the two classes are one already
    rw [hroot, hroot, hsame]
    constructor
    · exact Or.inl
    · rintro (h | ⟨hi, hj⟩ | ⟨hi, hj⟩)
      · exact h
      · exact hi.trans hj.symm
      · exact hi.trans hj.symm
  · refine ⟨by simp [hanswer, hne], ?_⟩
    intro i j
    rcases hjoins with h | h
    · exact h.rootOf_eq_iff i j
    · rw [h.rootOf_eq_iff i j, or_comm (a := _ ∧ _)]

/-- After any calls the ranks grow along the parents, searches and unions do what they should, and a
root of rank `r` has `2 ^ r` elements in its class, or more. So the ranks of fewer than `2 ^ 256`
elements fit a byte, and so does the one that two roots of equal rank lead to. -/
theorem classes_after {calls : List Call} {u : UnionFind}
    (h : UnionFind.empty.after? calls = some u) :
    u.Ranked ∧ (∀ x < u.size, u.Finds x) ∧ (∀ x < u.size, ∀ y < u.size, u.Merges x y) ∧
    (∀ r < u.size, u.parentOf r = r → 2 ^ u.rankOf r ≤ (u.members r).card) ∧
    (u.size < 2 ^ 256 → (∀ x < u.size, u.rankOf x < 2 ^ 8) ∧
      ∀ a < u.size, ∀ b < u.size, u.parentOf a = a → u.parentOf b = b → a ≠ b →
        u.rankOf a = u.rankOf b → u.rankOf a + 1 < 2 ^ 8) := by
  have hu := Populated.empty.after? h
  refine ⟨hu.ranked, fun x _ => hu.ranked.finds x, fun x hx y hy => hu.ranked.merges hx hy,
    hu.pow_rankOf_le, ?_⟩
  intro hsize
  exact ⟨fun x hx => hu.rankOf_lt hsize hx, fun a ha b hb => hu.rankOf_succ_lt hsize ha hb⟩

/-- Two unions of two, a union of both and a search: the root has rank two and a class of four, and
nothing is deeper than one step. -/
theorem classes_after_three_unions :
    ∃ u, UnionFind.empty.after? [.push, .push, .push, .push, .union 0 1, .union 2 3, .union 1 3,
        .find 3] = some u ∧
      u.parent = #[0, 0, 0, 0] ∧ u.rank = #[2, 0, 1, 0] ∧ 2 ^ 2 ≤ (u.members 0).card := by
  have hafter : UnionFind.empty.after? [.push, .push, .push, .push, .union 0 1, .union 2 3,
      .union 1 3, .find 3] = some ⟨#[0, 0, 0, 0], #[2, 0, 1, 0]⟩ := rfl
  exact ⟨_, hafter, rfl, rfl, (classes_after hafter).2.2.2.1 0 (by decide) rfl⟩

end UnionFind

end Congruence

end StraightLine
