import Mathlib.Logic.Relation
import StraightLine.Congruence.Closure
import StraightLine.Proofs.Congruence.Sharing

/-!
# LeastCongruence — the closure joins what it has to and nothing else

A relation on numbers is a congruence for a graph if it is an equivalence and relates applications
of one function to related arguments. Closing a graph makes its classes the least congruence that
contains the classes before.

* `IsCongruence`, `Within` — congruences, and classes inside a relation;
* `Closing.Invariant` — what holds between two lookups: the table knows the signature of every
  application that is not pending;
* `Closing.look_spec` — one lookup;
* `Closing.Turn`, `Closing.turn_spec`, `Closing.acc_turn` — a lookup of any pending node leaves less
  to do, since a join leaves one class less, however many applications it brings back;
* `Closes`, `closes_of_turns`, `closes_close` — the classes when nothing is pending.

Entries of the table may be stale: their roots may have been absorbed. A lookup never meets such an
entry, since it asks for present roots, and a root that was absorbed is never a root again.
-/

namespace StraightLine

namespace Congruence

/-! ## Congruences -/

structure IsCongruence (nodes : Array Node) (R : Nat → Nat → Prop) : Prop where
  equivalence : Equivalence R
  app : ∀ {i j : Nat} {f : String} {xs ys : List Nat}, nodes[i]? = some (.app f xs) →
    nodes[j]? = some (.app f ys) → List.Forall₂ R xs ys → R i j

/-- Elements of one class are related. -/
def Within (R : Nat → Nat → Prop) (u : UnionFind) : Prop :=
  ∀ i j, u.rootOf i = u.rootOf j → R i j

/-- Elements of one class stay in one class. -/
def Coarser (u v : UnionFind) : Prop :=
  ∀ i j, u.rootOf i = u.rootOf j → v.rootOf i = v.rootOf j

/-- All nodes are related by some congruence, for what does not depend on one. -/
theorem isCongruence_true (nodes : Array Node) : IsCongruence nodes fun _ _ => True where
  equivalence := ⟨fun _ => trivial, fun _ => trivial, fun _ _ => trivial⟩
  app := fun _ _ _ => trivial

/-- The classes of `v` are the least congruence above those of `u`. -/
structure Closes (nodes : Array Node) (u v : UnionFind) : Prop where
  ranked : v.Ranked
  coarser : Coarser u v
  congruence : IsCongruence nodes fun i j => v.rootOf i = v.rootOf j
  least : ∀ R, IsCongruence nodes R → Within R u → Within R v

/-- What is shown with any congruence above `u` at hand. -/
theorem Closes.of_forall {nodes : Array Node} {u v : UnionFind}
    (h : ∀ R, IsCongruence nodes R → Within R u → Within R v ∧ Coarser u v ∧ v.Ranked ∧
      IsCongruence nodes fun i j => v.rootOf i = v.rootOf j) : Closes nodes u v := by
  rcases h _ (isCongruence_true nodes) (fun _ _ _ => trivial) with ⟨_, hcoarser, hranked, hcong⟩
  exact ⟨hranked, hcoarser, hcong, fun R hR hwithin => (h R hR hwithin).1⟩

theorem Closes.rootOf_eq_iff {nodes : Array Node} {u v w : UnionFind} (hv : Closes nodes u v)
    (hw : Closes nodes u w) (i j : Nat) : v.rootOf i = v.rootOf j ↔ w.rootOf i = w.rootOf j := by
  constructor
  · exact hv.least _ hw.congruence hw.coarser i j
  · exact hw.least _ hv.congruence hv.coarser i j

theorem map_eq_map_iff_forall₂ {α β : Type*} {f : α → β} {xs ys : List α} :
    xs.map f = ys.map f ↔ List.Forall₂ (fun x y => f x = f y) xs ys := by
  rw [← List.forall₂_eq_eq_eq, List.forall₂_map_left_iff, List.forall₂_map_right_iff]

section Joins

open UnionFind

variable {u v : UnionFind} {kept absorbed : Nat} {R : Nat → Nat → Prop}

theorem Within.joins (hR : Equivalence R) (h : Within R u) (hj : Joins u v kept absorbed)
    {x y : Nat} (hx : u.rootOf x = kept) (hy : u.rootOf y = absorbed) (hxy : R x y) :
    Within R v := by
  intro i j hij
  rcases (hj.rootOf_eq_iff i j).1 hij with hij | ⟨hi, hj⟩ | ⟨hi, hj⟩
  · exact h i j hij
  · have hix : R i x := h i x (hi.trans hx.symm)
    have hyj : R y j := h y j (hy.trans hj.symm)
    exact hR.trans hix (hR.trans hxy hyj)
  · have hiy : R i y := h i y (hi.trans hy.symm)
    have hxj : R x j := h x j (hx.trans hj.symm)
    exact hR.trans hiy (hR.trans (hR.symm hxy) hxj)

theorem coarser_joins (hj : Joins u v kept absorbed) : Coarser u v :=
  fun i j hij => (hj.rootOf_eq_iff i j).2 (Or.inl hij)

/-- A root after a join was a root before and is not the absorbed one. -/
theorem rootOf_of_joins (hj : Joins u v kept absorbed) (hkept : u.rootOf kept = kept)
    (hne : kept ≠ absorbed) {r : Nat} (hr : v.rootOf r = r) : u.rootOf r = r ∧ r ≠ absorbed := by
  rw [hj.rootOf] at hr
  by_cases h : u.rootOf r = absorbed
  · rw [if_pos h] at hr
    rw [← hr, hkept] at h
    exact absurd h hne
  · rw [if_neg h] at hr
    exact ⟨hr, fun e => h (hr.trans e)⟩

end Joins

/-! ## The number of classes -/

def roots (u : UnionFind) : Finset Nat :=
  (Finset.range u.size).filter fun x => u.rootOf x = x

theorem roots_congr {u v : UnionFind} (hsize : v.size = u.size)
    (h : ∀ z, v.rootOf z = u.rootOf z) : roots v = roots u := by
  simp [roots, hsize, h]

theorem card_roots_lt_of_joins {u v : UnionFind} {kept absorbed : Nat}
    (hj : u.Joins v kept absorbed) (hkept : u.rootOf kept = kept)
    (habs : u.rootOf absorbed = absorbed) (hlt : absorbed < u.size) (hne : kept ≠ absorbed) :
    (roots v).card < (roots u).card := by
  refine Finset.card_lt_card (Finset.ssubset_iff_subset_ne.2 ⟨?_, ?_⟩)
  · intro x hx
    simp only [roots, Finset.mem_filter, hj.size] at hx ⊢
    exact ⟨hx.1, (rootOf_of_joins hj hkept hne hx.2).1⟩
  · intro heq
    have hmem : absorbed ∈ roots v := by
      rw [heq]
      simpa [roots] using ⟨hlt, habs⟩
    simp only [roots, Finset.mem_filter] at hmem
    exact (rootOf_of_joins hj hkept hne hmem.2).2 rfl

/-! ## The invariant of the loop -/

namespace Closing

open UnionFind

/-- What holds while `pending` is left to look up. -/
structure Invariant (nodes : Array Node) (R : Nat → Nat → Prop) (pending : List Nat)
    (state : Closing) : Prop where
  ranked : state.classes.Ranked
  size : state.classes.size = nodes.size
  within : Within R state.classes
  /-- Users of a class are noted at its root. -/
  uses : ∀ {id : Nat} {f : String} {args : List Nat}, nodes[id]? = some (.app f args) →
    ∀ arg ∈ args, id ∈ state.uses.getD (state.classes.rootOf arg) []
  /-- An entry whose roots are still roots is the signature of its application. -/
  entry : ∀ {f : String} {sig : List Nat} {id : Nat}, state.signatures[(f, sig)]? = some id →
    ∃ args, nodes[id]? = some (.app f args) ∧
      ((∀ r ∈ sig, state.classes.rootOf r = r) → args.map state.classes.rootOf = sig)
  /-- What is not pending is in the class of the entry for its signature. -/
  done : ∀ {id : Nat} {f : String} {args : List Nat}, nodes[id]? = some (.app f args) →
    id ∉ pending → ∃ other, state.signatures[(f, args.map state.classes.rootOf)]? = some other ∧
      state.classes.rootOf other = state.classes.rootOf id

variable {nodes : Array Node} {R : Nat → Nat → Prop} {pending : List Nat}

/-- The classes may be redirected as long as every root stays. -/
theorem Invariant.redirect {classes classes' : UnionFind} {uses : Uses} {signatures : Signatures}
    (h : Invariant nodes R pending ⟨classes, uses, signatures⟩) (hranked : classes'.Ranked)
    (hsize : classes'.size = classes.size) (hroot : ∀ z, classes'.rootOf z = classes.rootOf z) :
    Invariant nodes R pending ⟨classes', uses, signatures⟩ where
  ranked := hranked
  size := hsize.trans h.size
  within := by
    intro i j hij
    rw [hroot, hroot] at hij
    exact h.within i j hij
  uses := by
    intro id f args hid arg harg
    simp only [hroot]
    exact h.uses hid arg harg
  entry := by
    have hfun : classes'.rootOf = classes.rootOf := funext hroot
    intro f sig id hid
    simp only [hfun]
    exact h.entry hid
  done := by
    have hfun : classes'.rootOf = classes.rootOf := funext hroot
    intro id f args hid hpending
    simp only [hfun]
    exact h.done hid hpending

theorem Invariant.skip {state : Closing} {id : Nat} (h : Invariant nodes R (id :: pending) state)
    (hid : ∀ f args, nodes[id]? ≠ some (.app f args)) : Invariant nodes R pending state where
  ranked := h.ranked
  size := h.size
  within := h.within
  uses := h.uses
  entry := h.entry
  done := by
    intro other f args hother hpending
    refine h.done hother ?_
    intro hmem
    rcases List.mem_cons.1 hmem with rfl | hmem
    · exact hid f args hother
    · exact hpending hmem

/-- A signature that is not in the table is entered for its application. -/
theorem Invariant.enter {classes : UnionFind} {uses : Uses} {signatures : Signatures} {id : Nat}
    {f : String} {args : List Nat}
    (h : Invariant nodes R (id :: pending) ⟨classes, uses, signatures⟩)
    (hid : nodes[id]? = some (.app f args))
    (hnone : signatures[(f, args.map classes.rootOf)]? = none) :
    Invariant nodes R pending
      ⟨classes, uses, signatures.insert (f, args.map classes.rootOf) id⟩ where
  ranked := h.ranked
  size := h.size
  within := h.within
  uses := h.uses
  entry := by
    intro f' sig other hother
    simp only [Std.HashMap.getElem?_insert] at hother
    split at hother
    case isTrue he =>
      cases Option.some.inj hother
      cases eq_of_beq he
      exact ⟨args, hid, fun _ => rfl⟩
    case isFalse =>
      exact h.entry hother
  done := by
    intro other f' args' hother hpending
    by_cases he : other = id
    · subst he
      cases hid.symm.trans hother
      exact ⟨other, by simp, rfl⟩
    · have hmem : other ∉ id :: pending := by
        simp [he, hpending]
      rcases h.done hother hmem with ⟨witness, hwitness, hroot⟩
      refine ⟨witness, ?_, hroot⟩
      have hkey : (f, args.map classes.rootOf) ≠ (f', args'.map classes.rootOf) := by
        intro hkey
        simp only [← hkey, hnone] at hwitness
        cases hwitness
      simpa [Std.HashMap.getElem?_insert, hkey] using hwitness

/-- An application in the class of the entry for its signature needs nothing more. -/
theorem Invariant.settle {state : Closing} {id other : Nat} {f : String} {args : List Nat}
    (h : Invariant nodes R (id :: pending) state) (hid : nodes[id]? = some (.app f args))
    (hother : state.signatures[(f, args.map state.classes.rootOf)]? = some other)
    (hroot : state.classes.rootOf other = state.classes.rootOf id) :
    Invariant nodes R pending state where
  ranked := h.ranked
  size := h.size
  within := h.within
  uses := h.uses
  entry := h.entry
  done := by
    intro id' f' args' hid' hpending
    by_cases he : id' = id
    · subst he
      cases hid.symm.trans hid'
      exact ⟨other, hother, hroot⟩
    · exact h.done hid' (by simp [he, hpending])

/-! ## One lookup -/

/-- The table of users after `kept` has absorbed `absorbed`. -/
theorem mem_getD_moved {uses : Uses} {kept absorbed root id : Nat} (hne : kept ≠ absorbed)
    (h : id ∈ uses.getD root []) :
    id ∈ ((uses.erase absorbed).insert kept
      (uses.getD absorbed [] ++ (uses.erase absorbed).getD kept [])).getD
        (if root = absorbed then kept else root) [] := by
  by_cases ha : root = absorbed
  · subst ha
    simp [h]
  · by_cases hk : root = kept
    · subst hk
      simp [ha, Std.HashMap.getD_erase, Ne.symm ha, h]
    · simp [ha, Std.HashMap.getD_insert, Std.HashMap.getD_erase, Ne.symm ha, Ne.symm hk, h]

/-- The entry for a signature is the application of the same function to related arguments. -/
theorem Invariant.related (hR : IsCongruence nodes R) {state : Closing} {id other : Nat}
    {f : String} {args : List Nat} (h : Invariant nodes R pending state)
    (hid : nodes[id]? = some (.app f args))
    (hother : state.signatures[(f, args.map state.classes.rootOf)]? = some other) : R other id := by
  rcases h.entry hother with ⟨args', hnode, hsig⟩
  have hmap : args'.map state.classes.rootOf = args.map state.classes.rootOf := by
    refine hsig ?_
    intro r hr
    rcases List.mem_map.1 hr with ⟨x, _, rfl⟩
    exact rootOf_rootOf h.ranked x
  exact hR.app hnode hid ((map_eq_map_iff_forall₂.1 hmap).imp h.within)

/-- An application and the entry for its signature come into one class, and the users of the
absorbed root are pending again. -/
theorem Invariant.absorb (hR : IsCongruence nodes R) {classes v : UnionFind} {uses : Uses}
    {signatures : Signatures} {id other : Nat} {f : String} {args : List Nat} {kept absorbed : Nat}
    (h : Invariant nodes R (id :: pending) ⟨classes, uses, signatures⟩)
    (hid : nodes[id]? = some (.app f args))
    (hother : signatures[(f, args.map classes.rootOf)]? = some other)
    (hj : Joins classes v kept absorbed) (hne : kept ≠ absorbed)
    (hends : (classes.rootOf other = kept ∧ classes.rootOf id = absorbed) ∨
      (classes.rootOf other = absorbed ∧ classes.rootOf id = kept)) :
    Invariant nodes R (uses.getD absorbed [] ++ pending)
      ⟨v, (uses.erase absorbed).insert kept
        (uses.getD absorbed [] ++ (uses.erase absorbed).getD kept []), signatures⟩ := by
  have hranked : classes.Ranked := h.ranked
  have hkept : classes.rootOf kept = kept := by
    rcases hends with ⟨he, _⟩ | ⟨_, he⟩
    · rw [← he, rootOf_rootOf hranked]
    · rw [← he, rootOf_rootOf hranked]
  -- signatures without the absorbed root do not change
  have hkeep : ∀ {xs : List Nat}, (∀ x ∈ xs, classes.rootOf x ≠ absorbed) →
      xs.map v.rootOf = xs.map classes.rootOf := by
    intro xs hxs
    refine List.map_congr_left ?_
    intro x hx
    rw [hj.rootOf, if_neg (hxs x hx)]
  have hrelated : R other id := h.related hR hid hother
  have hsame : v.rootOf other = v.rootOf id :=
    (hj.rootOf_eq_iff other id).2 (Or.inr hends)
  refine ⟨hj.ranked, hj.size.trans h.size, ?_, ?_, ?_, ?_⟩
  · rcases hends with ⟨ho, hi⟩ | ⟨ho, hi⟩
    · exact h.within.joins hR.equivalence hj ho hi hrelated
    · exact h.within.joins hR.equivalence hj hi ho (hR.equivalence.symm hrelated)
  · intro id' f' args' hid' arg harg
    simp only [hj.rootOf]
    exact mem_getD_moved hne (h.uses hid' arg harg)
  · -- an entry that is met again has roots that are no absorbed ones
    intro f' sig id' hid'
    rcases h.entry hid' with ⟨args', hnode, hsig⟩
    refine ⟨args', hnode, ?_⟩
    intro hroots
    have hbefore : ∀ r ∈ sig, classes.rootOf r = r ∧ r ≠ absorbed :=
      fun r hr => rootOf_of_joins hj hkept hne (hroots r hr)
    have hmap := hsig fun r hr => (hbefore r hr).1
    rw [← hmap]
    refine hkeep ?_
    intro x hx
    exact (hbefore _ (hmap ▸ List.mem_map_of_mem hx)).2
  · -- what does not become pending has no argument in the absorbed class
    intro id' f' args' hid' hpending
    have hmoved : id' ∉ uses.getD absorbed [] := fun hm =>
      hpending (List.mem_append_left _ hm)
    have hmap : args'.map v.rootOf = args'.map classes.rootOf := by
      refine hkeep ?_
      intro x hx hroot
      have huses : id' ∈ uses.getD (classes.rootOf x) [] := h.uses hid' x hx
      rw [hroot] at huses
      exact hmoved huses
    simp only [hmap]
    by_cases he : id' = id
    · subst he
      cases hid.symm.trans hid'
      exact ⟨other, hother, hsame⟩
    · have hmem : id' ∉ id :: pending := by
        intro hm
        rcases List.mem_cons.1 hm with hm | hm
        · exact he hm
        · exact hpending (List.mem_append_right _ hm)
      rcases h.done hid' hmem with ⟨witness, hwitness, hroot⟩
      exact ⟨witness, hwitness, coarser_joins hj witness id' hroot⟩

/-- What a lookup may answer when the application is followed by `pending`. -/
def FoundSpec (nodes : Array Node) (R : Nat → Nat → Prop) (pending : List Nat)
    (before : UnionFind) : Found → Prop
  | .settled state =>
      Invariant nodes R pending state ∧ roots state.classes = roots before ∧
        Coarser before state.classes
  | .joined moved state =>
      Invariant nodes R (moved ++ pending) state ∧
        (roots state.classes).card < (roots before).card ∧ Coarser before state.classes

/-- Two classes have become one, whichever root hangs below the other: what used the absorbed root
is pending again, and there is one class less. -/
theorem joined_spec (hR : IsCongruence nodes R) {classes v w : UnionFind} {uses : Uses}
    {signatures : Signatures} {id other : Nat} {f : String} {args : List Nat} {kept absorbed : Nat}
    (h : Invariant nodes R (id :: pending) ⟨classes, uses, signatures⟩)
    (hid : nodes[id]? = some (.app f args))
    (hother : signatures[(f, args.map classes.rootOf)]? = some other)
    (hj : Joins classes v kept absorbed) (hne : kept ≠ absorbed)
    (hends : (classes.rootOf other = kept ∧ classes.rootOf id = absorbed) ∨
      (classes.rootOf other = absorbed ∧ classes.rootOf id = kept))
    (hranked : w.Ranked) (hsize : w.size = v.size) (hroot : ∀ z, w.rootOf z = v.rootOf z) :
    FoundSpec nodes R pending classes (.joined (uses.getD absorbed [])
      ⟨w, (uses.erase absorbed).insert kept
        (uses.getD absorbed [] ++ (uses.erase absorbed).getD kept []), signatures⟩) := by
  have hotherlt : other < nodes.size := by
    rcases h.entry hother with ⟨_, hnode, _⟩
    exact (Array.getElem?_eq_some_iff.1 hnode).1
  -- both ends are roots of nodes
  have hend : ∀ {x : Nat}, x < nodes.size →
      classes.rootOf (classes.rootOf x) = classes.rootOf x ∧ classes.rootOf x < classes.size := by
    intro x hx
    exact ⟨rootOf_rootOf h.ranked x, rootOf_lt h.ranked (h.size ▸ hx)⟩
  have hkept : classes.rootOf kept = kept := by
    rcases hends with ⟨rfl, _⟩ | ⟨_, rfl⟩
    · exact (hend hotherlt).1
    · exact (hend (Array.getElem?_eq_some_iff.1 hid).1).1
  have habsorbed : classes.rootOf absorbed = absorbed ∧ absorbed < classes.size := by
    rcases hends with ⟨_, rfl⟩ | ⟨rfl, _⟩
    · exact hend (Array.getElem?_eq_some_iff.1 hid).1
    · exact hend hotherlt
  refine ⟨(h.absorb hR hid hother hj hne hends).redirect hranked hsize hroot, ?_, ?_⟩
  · rw [roots_congr hsize hroot]
    exact card_roots_lt_of_joins hj hkept habsorbed.1 habsorbed.2 hne
  · intro i j hij
    rw [hroot, hroot]
    exact coarser_joins hj i j hij

theorem join_spec (hR : IsCongruence nodes R) {classes : UnionFind} {uses : Uses}
    {signatures : Signatures} {id other : Nat} {f : String} {args : List Nat}
    (h : Invariant nodes R (id :: pending) ⟨classes, uses, signatures⟩)
    (hid : nodes[id]? = some (.app f args))
    (hother : signatures[(f, args.map classes.rootOf)]? = some other) :
    FoundSpec nodes R pending classes
      (join classes uses signatures (classes.rootOf other) (classes.rootOf id)) := by
  have hranked : classes.Ranked := h.ranked
  have hsize : classes.size = nodes.size := h.size
  have hidlt : id < nodes.size := (Array.getElem?_eq_some_iff.1 hid).1
  have hotherlt : other < nodes.size := by
    rcases h.entry hother with ⟨_, hnode, _⟩
    exact (Array.getElem?_eq_some_iff.1 hnode).1
  have hunion := joins_union hranked (rootOf_lt hranked (hsize ▸ hotherlt))
    (rootOf_lt hranked (hsize ▸ hidlt))
  have hvsize := size_union classes (classes.rootOf other) (classes.rootOf id)
  simp only [rootOf_rootOf hranked] at hunion
  simp only [join]
  generalize classes.union (classes.rootOf other) (classes.rootOf id) = result at hunion hvsize ⊢
  rcases result with ⟨changed, v⟩
  rcases hunion with ⟨rfl, hsame, hv, hroot⟩ | ⟨rfl, hdiff, hv⟩
  · refine ⟨(h.settle hid hother hsame).redirect hv hvsize hroot, roots_congr hvsize hroot, ?_⟩
    intro i j hij
    rw [hroot, hroot, hij]
  · -- the union may hang either root below the other; `find` tells which one was kept
    have hfirst : (v.find (classes.rootOf other)).1 = v.rootOf (classes.rootOf other) := rfl
    rcases hv with hj | hj
    · have hkept : (v.find (classes.rootOf other)).1 = classes.rootOf other := by
        rw [hfirst, hj.rootOf, rootOf_rootOf hranked, if_neg hdiff]
      simp only [hkept, if_true]
      exact joined_spec hR h hid hother hj hdiff (Or.inl ⟨rfl, rfl⟩) (hj.ranked.find _)
        (size_find v _) (rootOf_find hj.ranked _)
    · have hkept : (v.find (classes.rootOf other)).1 = classes.rootOf id := by
        rw [hfirst, hj.rootOf, rootOf_rootOf hranked, if_pos rfl]
      simp only [hkept, if_neg hdiff.symm]
      exact joined_spec hR h hid hother hj hdiff.symm (Or.inr ⟨rfl, rfl⟩) (hj.ranked.find _)
        (size_find v _) (rootOf_find hj.ranked _)

theorem FoundSpec.of_roots {before before' : UnionFind} {found : Found}
    (h : FoundSpec nodes R pending before' found) (hsize : before'.size = before.size)
    (hroot : ∀ z, before'.rootOf z = before.rootOf z) : FoundSpec nodes R pending before found := by
  have hroots := roots_congr hsize hroot
  have hcoarser : ∀ {v : UnionFind}, Coarser before' v → Coarser before v := by
    intro v hv i j hij
    refine hv i j ?_
    rw [hroot, hroot, hij]
  cases found with
  | settled state =>
      rcases h with ⟨hinv, hcard, hv⟩
      exact ⟨hinv, hcard.trans hroots, hcoarser hv⟩
  | joined moved state =>
      rcases h with ⟨hinv, hcard, hv⟩
      exact ⟨hinv, hroots ▸ hcard, hcoarser hv⟩

/-- A lookup settles an application or joins two classes. -/
theorem look_spec (hR : IsCongruence nodes R) {state : Closing} {id : Nat} {f : String}
    {args : List Nat} (h : Invariant nodes R (id :: pending) state)
    (hid : nodes[id]? = some (.app f args)) :
    FoundSpec nodes R pending state.classes (look state id f args) := by
  rcases state with ⟨classes, uses, signatures⟩
  rcases findAll_spec h.ranked args with ⟨hsig, hranked, hsize, hroot⟩
  have h₁ := h.redirect hranked hsize hroot
  have hfun : (classes.findAll args).2.rootOf = classes.rootOf := funext hroot
  rw [← hfun] at hsig
  simp only [look]
  generalize classes.findAll args = found at hsig hranked hsize hroot h₁ ⊢
  rcases found with ⟨sig, classes₁⟩
  dsimp only at hsig hranked hsize hroot h₁ ⊢
  subst hsig
  refine FoundSpec.of_roots ?_ hsize hroot
  cases hother : signatures[(f, args.map classes₁.rootOf)]? with
  | none =>
      exact ⟨h₁.enter hid hother, rfl, fun _ _ hij => hij⟩
  | some other =>
      have hroot₁ := rootOf_find hranked other
      have hranked₁ := hranked.find other
      have h₂ := h₁.redirect hranked₁ (size_find _ other) hroot₁
      have hroot₂ := rootOf_find hranked₁ id
      have h₃ := h₂.redirect (hranked₁.find id) (size_find _ id) hroot₂
      have hroots : ∀ z, ((classes₁.find other).2.find id).2.rootOf z = classes₁.rootOf z := by
        intro z
        rw [hroot₂, hroot₁]
      have hfun₁ : ((classes₁.find other).2.find id).2.rootOf = classes₁.rootOf := funext hroots
      rw [← hfun₁] at hother
      have hjoin := join_spec hR h₃ hid hother
      rw [hfun₁] at hjoin
      have ha : (classes₁.find other).1 = classes₁.rootOf other := rfl
      have hb : ((classes₁.find other).2.find id).1 = classes₁.rootOf id := hroot₁ id
      simp only [ha, hb]
      exact hjoin.of_roots (by simp) hroots

/-! ## All lookups -/

/-- A lookup of any pending node. -/
inductive Turn (nodes : Array Node) : List Nat × Closing → List Nat × Closing → Prop where
  | settled {pending rest : List Nat} {state after : Closing} {id : Nat} {f : String}
      {args : List Nat} (next : pending.Perm (id :: rest)) (node : nodes[id]? = some (.app f args))
      (found : look state id f args = .settled after) :
      Turn nodes (pending, state) (rest, after)
  | joined {pending rest moved : List Nat} {state after : Closing} {id : Nat} {f : String}
      {args : List Nat} (next : pending.Perm (id :: rest)) (node : nodes[id]? = some (.app f args))
      (found : look state id f args = .joined moved after) :
      Turn nodes (pending, state) (moved ++ rest, after)
  | skipped {pending rest : List Nat} {state : Closing} {id : Nat}
      (next : pending.Perm (id :: rest)) (node : ∀ f args, nodes[id]? ≠ some (.app f args)) :
      Turn nodes (pending, state) (rest, state)

/-- As long as something is pending there is a turn. -/
theorem exists_turn (nodes : Array Node) (id : Nat) (rest : List Nat) (state : Closing) :
    ∃ after, Turn nodes (id :: rest, state) after := by
  by_cases hnode : ∃ f args, nodes[id]? = some (.app f args)
  · rcases hnode with ⟨f, args, hnode⟩
    cases hfound : look state id f args with
    | settled after =>
        exact ⟨_, .settled (.refl _) hnode hfound⟩
    | joined moved after =>
        exact ⟨_, .joined (.refl _) hnode hfound⟩
  · exact ⟨_, .skipped (.refl _) fun f args h => hnode ⟨f, args, h⟩⟩

/-- What is pending matters, and not in which order. -/
theorem Invariant.perm {pending' : List Nat} {state : Closing}
    (h : Invariant nodes R pending state) (hperm : pending.Perm pending') :
    Invariant nodes R pending' state where
  ranked := h.ranked
  size := h.size
  within := h.within
  uses := h.uses
  entry := h.entry
  done := fun hid hpending => h.done hid fun hmem => hpending (hperm.mem_iff.1 hmem)

/-- Classes before pending nodes. -/
def workOf (p : List Nat × Closing) : Nat × Nat :=
  ((roots p.2.classes).card, p.1.length)

/-- A turn keeps the invariant, takes no class apart and leaves less to do. -/
theorem turn_spec (hR : IsCongruence nodes R) {before after : List Nat × Closing}
    (h : Invariant nodes R before.1 before.2) (hturn : Turn nodes before after) :
    Invariant nodes R after.1 after.2 ∧ Coarser before.2.classes after.2.classes ∧
      Prod.Lex (· < ·) (· < ·) (workOf after) (workOf before) := by
  cases hturn with
  | @settled pending rest state after id f args next node found =>
      have hspec := look_spec hR (h.perm next) node
      rw [found] at hspec
      rcases hspec with ⟨hinv, hroots, hcoarser⟩
      refine ⟨hinv, hcoarser, ?_⟩
      -- as many classes as before, and one node less
      have hlength : rest.length < pending.length := by
        simp [next.length_eq]
      simpa [workOf, hroots] using Prod.Lex.right _ hlength
  | joined next node found =>
      have hspec := look_spec hR (h.perm next) node
      rw [found] at hspec
      rcases hspec with ⟨hinv, hcard, hcoarser⟩
      -- a class less outweighs whatever is pending again
      exact ⟨hinv, hcoarser, .left _ _ hcard⟩
  | @skipped pending rest state id next node =>
      have hlength : rest.length < pending.length := by
        simp [next.length_eq]
      exact ⟨(h.perm next).skip node, fun _ _ hij => hij, .right _ hlength⟩

/-- The loop ends, whichever node is taken next. -/
theorem acc_turn (hR : IsCongruence nodes R) {start : List Nat × Closing}
    (h : Invariant nodes R start.1 start.2) :
    Acc (fun after before => Turn nodes before after) start := by
  have hwf : WellFounded fun after before =>
      Prod.Lex (· < ·) (· < ·) (workOf after) (workOf before) :=
    InvImage.wf workOf (Prod.lex Nat.lt_wfRel Nat.lt_wfRel).wf
  induction start using hwf.induction with
  | _ before ih =>
      refine .intro before ?_
      intro after hturn
      rcases turn_spec hR h hturn with ⟨hinv, _, hless⟩
      exact ih after hless hinv

/-- What any number of turns keeps. -/
theorem turns_spec (hR : IsCongruence nodes R) {before after : List Nat × Closing}
    (h : Invariant nodes R before.1 before.2)
    (hturns : Relation.ReflTransGen (Turn nodes) before after) :
    Invariant nodes R after.1 after.2 ∧ Coarser before.2.classes after.2.classes := by
  induction hturns with
  | refl =>
      exact ⟨h, fun _ _ hij => hij⟩
  | tail _ hturn ih =>
      rcases ih with ⟨hinv, hcoarser⟩
      rcases turn_spec hR hinv hturn with ⟨hinv, hcoarser', _⟩
      exact ⟨hinv, fun i j hij => hcoarser' i j (hcoarser i j hij)⟩

/-- With joins for all classes, looking up what is pending is a run of the loop to its end. -/
theorem turns_run (hR : IsCongruence nodes R) {joins : Nat} {state : Closing}
    (h : Invariant nodes R pending state) (hjoins : (roots state.classes).card ≤ joins) :
    Relation.ReflTransGen (Turn nodes) (pending, state) ([], run nodes joins pending state) := by
  fun_induction run nodes joins pending state with
  | case1 joins state =>
      exact .refl
  | case2 joins state id pending f args hid state' hlook ih =>
      have hspec := look_spec hR h hid
      rw [hlook] at hspec
      rcases hspec with ⟨hinv, hroots, _⟩
      exact .head (.settled (.refl _) hid hlook) (ih hinv (hroots ▸ hjoins))
  | case3 state id pending f args hid moved state' hlook =>
      have hspec := look_spec hR h hid
      rw [hlook] at hspec
      exact absurd (Nat.lt_of_lt_of_le hspec.2.1 hjoins) (Nat.not_lt_zero _)
  | case4 state id pending f args hid moved state' hlook joins ih =>
      have hspec := look_spec hR h hid
      rw [hlook] at hspec
      rcases hspec with ⟨hinv, hcard, _⟩
      have hleft := Nat.le_of_lt_succ (Nat.lt_of_lt_of_le hcard hjoins)
      exact .head (.joined (.refl _) hid hlook) (ih hinv hleft)
  | case5 joins state id pending hid ih =>
      have hnode : ∀ f args, nodes[id]? ≠ some (.app f args) := fun f args => hid f args
      exact .head (.skipped (.refl _) hnode) (ih (h.skip hnode) hjoins)

/-- When nothing is pending, applications of one signature are in one class. -/
theorem Invariant.closed {state : Closing} (h : Invariant nodes R [] state) :
    IsCongruence nodes fun i j => state.classes.rootOf i = state.classes.rootOf j where
  equivalence := ⟨fun _ => rfl, fun h => h.symm, fun h h' => h.trans h'⟩
  app := by
    intro i j f xs ys hi hj hxy
    have hmap : xs.map state.classes.rootOf = ys.map state.classes.rootOf :=
      map_eq_map_iff_forall₂.2 hxy
    rcases h.done hi List.not_mem_nil with ⟨other, hother, hroot⟩
    rcases h.done hj List.not_mem_nil with ⟨other', hother', hroot'⟩
    rw [hmap] at hother
    cases hother.symm.trans hother'
    -- both are in the class of the one entry for their signature
    calc
      state.classes.rootOf i
          = state.classes.rootOf other := hroot.symm
      _ = state.classes.rootOf j := hroot'

end Closing

/-! ## Closing a graph -/

namespace TermGraph

open UnionFind

/-- The same classes, and at least the same users. -/
structure Noted (before after : UnionFind × Uses) : Prop where
  ranked : after.1.Ranked
  size : after.1.size = before.1.size
  rootOf : ∀ z, after.1.rootOf z = before.1.rootOf z
  uses : ∀ {root id : Nat}, id ∈ before.2.getD root [] → id ∈ after.2.getD root []

theorem Noted.trans {a b c : UnionFind × Uses} (h : Noted a b) (h' : Noted b c) : Noted a c where
  ranked := h'.ranked
  size := h'.size.trans h.size
  rootOf := fun z => (h'.rootOf z).trans (h.rootOf z)
  uses := fun hid => h'.uses (h.uses hid)

theorem noted_insert {classes : UnionFind} (uses : Uses) (h : classes.Ranked) (id arg : Nat) :
    Noted (classes, uses) ((classes.find arg).2,
      uses.insert (classes.find arg).1 (id :: uses.getD (classes.find arg).1 [])) where
  ranked := h.find arg
  size := size_find classes arg
  rootOf := rootOf_find h arg
  uses := by
    intro root other hother
    by_cases hroot : (classes.find arg).1 = root
    · subst hroot
      simpa using Or.inr hother
    · simpa [Std.HashMap.getD_insert, hroot] using hother

theorem noteUses_spec {classes : UnionFind} (h : classes.Ranked) (id : Nat) (uses : Uses)
    (args : List Nat) :
    Noted (classes, uses) (noteUses id classes uses args) ∧
      ∀ arg ∈ args, id ∈ (noteUses id classes uses args).2.getD (classes.rootOf arg) [] := by
  induction args generalizing classes uses with
  | nil =>
      refine ⟨⟨h, rfl, fun _ => rfl, fun hid => hid⟩, ?_⟩
      intro arg harg
      cases harg
  | cons arg rest ih =>
      have hinsert := noted_insert uses h id arg
      rcases ih hinsert.ranked _ with ⟨hrest, husers⟩
      refine ⟨hinsert.trans hrest, ?_⟩
      intro x hx
      rcases List.mem_cons.1 hx with rfl | hx
      · refine hrest.uses ?_
        have hroot : classes.rootOf x = (classes.find x).1 := rfl
        simp [hroot]
      · have hmem := husers x hx
        rw [hinsert.rootOf] at hmem
        exact hmem

theorem collectUses_spec {classes : UnionFind} (h : classes.Ranked) (nodes : Array Node)
    (apps : List Nat) (uses : Uses) :
    Noted (classes, uses) (collectUses nodes apps classes uses) ∧
      ∀ {id : Nat} {f : String} {args : List Nat}, id ∈ apps → nodes[id]? = some (.app f args) →
        ∀ arg ∈ args,
          id ∈ (collectUses nodes apps classes uses).2.getD (classes.rootOf arg) [] := by
  induction apps generalizing classes uses with
  | nil =>
      refine ⟨⟨h, rfl, fun _ => rfl, fun hid => hid⟩, ?_⟩
      intro id f args hid
      cases hid
  | cons first rest ih =>
      simp only [collectUses]
      split
      case h_1 f args hfirst =>
        have hnote := noteUses_spec h first uses args
        generalize noteUses first classes uses args = noted at hnote ⊢
        rcases noted with ⟨classes', uses'⟩
        rcases hnote with ⟨hnoted, husers⟩
        rcases ih hnoted.ranked uses' with ⟨hrest, hmore⟩
        refine ⟨hnoted.trans hrest, ?_⟩
        intro id f' args' hid hnode arg harg
        rcases List.mem_cons.1 hid with rfl | hid
        · cases hfirst.symm.trans hnode
          exact hrest.uses (husers arg harg)
        · have hmem := hmore hid hnode arg harg
          rw [hnoted.rootOf] at hmem
          exact hmem
      case h_2 hfirst =>
        rcases ih h uses with ⟨hrest, hmore⟩
        refine ⟨hrest, ?_⟩
        intro id f args hid hnode
        rcases List.mem_cons.1 hid with rfl | hid
        · exact absurd hnode (hfirst f args)
        · exact hmore hid hnode

theorem mem_applications {g : TermGraph} {id : Nat} {f : String} {args : List Nat}
    (h : g.nodes[id]? = some (.app f args)) : id ∈ g.applications := by
  refine List.mem_filter.2 ⟨List.mem_range.2 (Array.getElem?_eq_some_iff.1 h).1, ?_⟩
  rw [h]

/-- What is pending before the first lookup, and the state that it is looked up in. -/
def start (g : TermGraph) : List Nat × Closing :=
  let noted := collectUses g.nodes g.applications g.classes ∅
  (g.applications.reverse, ⟨noted.1, noted.2, ∅⟩)

/-- Before the first lookup the table is empty, and every application is pending. -/
theorem invariant_start {g : TermGraph} {R : Nat → Nat → Prop} (hranked : g.classes.Ranked)
    (hsize : g.classes.size = g.nodes.size) (hwithin : Within R g.classes) :
    Closing.Invariant g.nodes R g.start.1 g.start.2 ∧
      ∀ z, g.start.2.classes.rootOf z = g.classes.rootOf z := by
  rcases collectUses_spec hranked g.nodes g.applications ∅ with ⟨hnoted, husers⟩
  refine ⟨⟨hnoted.ranked, hnoted.size.trans hsize, ?_, ?_, ?_, ?_⟩, hnoted.rootOf⟩
  · intro i j hij
    refine hwithin i j ?_
    rwa [← hnoted.rootOf i, ← hnoted.rootOf j]
  · intro id f args hid arg harg
    have hmem := husers (mem_applications hid) hid arg harg
    rwa [← hnoted.rootOf arg] at hmem
  · intro f sig id hid
    simp [start] at hid
  · intro id f args hid hpending
    exact absurd (List.mem_reverse.2 (mem_applications hid)) hpending

/-- There are no more classes than nodes. -/
theorem card_roots_start {g : TermGraph} (hranked : g.classes.Ranked)
    (hsize : g.classes.size = g.nodes.size) :
    (roots g.start.2.classes).card ≤ g.nodes.size :=
  calc
    (roots g.start.2.classes).card
        ≤ (Finset.range g.start.2.classes.size).card := Finset.card_filter_le _ _
    _ = g.start.2.classes.size := Finset.card_range g.start.2.classes.size
    _ = g.nodes.size := (collectUses_spec hranked g.nodes g.applications ∅).1.size.trans hsize

/-- At the end of any run of the loop the classes are the least congruence above those before. -/
theorem closes_of_turns {g : TermGraph} (hranked : g.classes.Ranked)
    (hsize : g.classes.size = g.nodes.size) {out : Closing}
    (h : Relation.ReflTransGen (Closing.Turn g.nodes) g.start ([], out)) :
    Closes g.nodes g.classes out.classes := by
  refine .of_forall ?_
  intro R hR hwithin
  rcases invariant_start hranked hsize hwithin with ⟨hstart, hroot⟩
  rcases Closing.turns_spec hR hstart h with ⟨hdone, hcoarser⟩
  refine ⟨hdone.within, ?_, hdone.ranked, hdone.closed⟩
  intro i j hij
  refine hcoarser i j ?_
  rw [hroot, hroot, hij]

/-- Closing is such a run. -/
theorem turns_close {g : TermGraph} (hranked : g.classes.Ranked)
    (hsize : g.classes.size = g.nodes.size) :
    ∃ out, Relation.ReflTransGen (Closing.Turn g.nodes) g.start ([], out) ∧
      out.classes = g.close.classes := by
  have hcong := isCongruence_true g.nodes
  have hstart := (invariant_start hranked hsize (R := fun _ _ => True) fun _ _ _ => trivial).1
  exact ⟨_, Closing.turns_run hcong hstart (card_roots_start hranked hsize), rfl⟩

theorem closes_close {g : TermGraph} (hranked : g.classes.Ranked)
    (hsize : g.classes.size = g.nodes.size) : Closes g.nodes g.classes g.close.classes := by
  rcases turns_close hranked hsize with ⟨out, hturns, hout⟩
  exact hout ▸ closes_of_turns hranked hsize hturns

/-! ## Joining the pairs -/

/-- Joining two related elements keeps the classes below the relation. -/
theorem union_spec {R : Nat → Nat → Prop} (hR : Equivalence R) {u : UnionFind} (hu : u.Ranked)
    {a b : Nat} (ha : a < u.size) (hb : b < u.size) (hab : R a b) (hwithin : Within R u) :
    (u.union a b).2.Ranked ∧ Within R (u.union a b).2 ∧ Coarser u (u.union a b).2 ∧
      (u.union a b).2.rootOf a = (u.union a b).2.rootOf b := by
  rcases joins_union hu ha hb with ⟨_, hsame, hv, hroot⟩ | ⟨_, _, hj | hj⟩
  · refine ⟨hv, ?_, ?_, ?_⟩
    · intro i j hij
      rw [hroot, hroot] at hij
      exact hwithin i j hij
    · intro i j hij
      rw [hroot, hroot, hij]
    · rw [hroot, hroot, hsame]
  · refine ⟨hj.ranked, hwithin.joins hR hj rfl rfl hab, coarser_joins hj, ?_⟩
    exact (hj.rootOf_eq_iff _ _).2 (Or.inr (Or.inl ⟨rfl, rfl⟩))
  · refine ⟨hj.ranked, hwithin.joins hR hj rfl rfl (hR.symm hab), coarser_joins hj, ?_⟩
    exact (hj.rootOf_eq_iff _ _).2 (Or.inr (Or.inr ⟨rfl, rfl⟩))

/-- Joining pairs joins only what every equivalence above the classes and the pairs relates. -/
theorem unionPairs_spec {R : Nat → Nat → Prop} (hR : Equivalence R) {pairs : List (Nat × Nat)}
    {u : UnionFind} (hu : u.Ranked) (hpairs : ∀ p ∈ pairs, p.1 < u.size ∧ p.2 < u.size)
    (hrel : ∀ p ∈ pairs, R p.1 p.2) (hwithin : Within R u) :
    let v := pairs.foldl (fun u p => (u.union p.1 p.2).2) u
    v.Ranked ∧ v.size = u.size ∧ Within R v ∧ Coarser u v ∧
      ∀ p ∈ pairs, v.rootOf p.1 = v.rootOf p.2 := by
  induction pairs generalizing u with
  | nil =>
      refine ⟨hu, rfl, hwithin, fun _ _ hij => hij, ?_⟩
      intro p hp
      cases hp
  | cons p rest ih =>
      rcases hpairs p List.mem_cons_self with ⟨hp₁, hp₂⟩
      have hsize : (u.union p.1 p.2).2.size = u.size := size_union u p.1 p.2
      rcases union_spec hR hu hp₁ hp₂ (hrel p List.mem_cons_self) hwithin with
        ⟨hranked, hwithin', hcoarser, hjoined⟩
      have hrest : ∀ q ∈ rest, q.1 < (u.union p.1 p.2).2.size ∧ q.2 < (u.union p.1 p.2).2.size := by
        intro q hq
        rw [hsize]
        exact hpairs q (List.mem_cons_of_mem _ hq)
      rcases ih hranked hrest (fun q hq => hrel q (List.mem_cons_of_mem _ hq)) hwithin' with
        ⟨hv, hvsize, hvwithin, hvcoarser, hvpairs⟩
      refine ⟨hv, hvsize.trans hsize, hvwithin, fun i j hij => hvcoarser i j (hcoarser i j hij), ?_⟩
      intro q hq
      rcases List.mem_cons.1 hq with rfl | hq
      · -- later joins keep the first pair together
        exact hvcoarser _ _ hjoined
      · exact hvpairs q hq

theorem Shared.ranked {g : TermGraph} (hg : g.Shared) : g.classes.Ranked :=
  .of_apart hg.size_ranks hg.apart

/-- After interning every node is alone in its class. -/
theorem Shared.within {g : TermGraph} (hg : g.Shared) {R : Nat → Nat → Prop}
    (hR : Equivalence R) : Within R g.classes := by
  intro i j hij
  rw [rootOf_eq_self hg.ranked (hg.apart i), rootOf_eq_self hg.ranked (hg.apart j)] at hij
  exact hij ▸ hR.refl i

/-- Joining pairs of interned nodes. -/
theorem Shared.unionPairs {g : TermGraph} (hg : g.Shared) {R : Nat → Nat → Prop}
    (hR : Equivalence R) {pairs : List (Nat × Nat)}
    (hpairs : ∀ p ∈ pairs, p.1 < g.nodes.size ∧ p.2 < g.nodes.size)
    (hrel : ∀ p ∈ pairs, R p.1 p.2) :
    (g.unionPairs pairs).classes.Ranked ∧ (g.unionPairs pairs).classes.size = g.nodes.size ∧
      Within R (g.unionPairs pairs).classes ∧
      ∀ p ∈ pairs, (g.unionPairs pairs).classes.rootOf p.1 =
        (g.unionPairs pairs).classes.rootOf p.2 := by
  rcases unionPairs_spec hR hg.ranked (hg.size_classes ▸ hpairs) hrel (hg.within hR) with
    ⟨hv, hvsize, hvwithin, _, hvpairs⟩
  exact ⟨hv, hvsize.trans hg.size_classes, hvwithin, hvpairs⟩

end TermGraph

end Congruence

end StraightLine
