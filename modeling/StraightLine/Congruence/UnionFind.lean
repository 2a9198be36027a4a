/-!
# UnionFind — classes of numbered elements

Every element points to a parent, and a root to itself; two elements are in one class when they
lead to one root. Looking for a root redirects all elements on the way to it, and joining two
classes hangs the root of lower rank below the other.

* `UnionFind.push` — a new element, alone in its class;
* `UnionFind.find`, `UnionFind.findAll` — roots, with the redirected structure;
* `UnionFind.union` — joins two classes and says whether they were two.
-/

namespace StraightLine

namespace Congruence

structure UnionFind where
  /-- Where each element points; a root points to itself. -/
  parent : Array Nat
  /-- A bound on the height below each element, exact as long as nothing is redirected. -/
  rank : Array Nat
  deriving Repr

namespace UnionFind

def empty : UnionFind :=
  { parent := #[], rank := #[] }

/-- Number of elements. -/
def size (u : UnionFind) : Nat :=
  u.parent.size

/-- An element outside the structure stands alone. -/
def parentOf (u : UnionFind) (x : Nat) : Nat :=
  u.parent.getD x x

def rankOf (u : UnionFind) (x : Nat) : Nat :=
  u.rank.getD x 0

def setParent (u : UnionFind) (x p : Nat) : UnionFind :=
  match u with
  | ⟨parent, rank⟩ => ⟨parent.setIfInBounds x p, rank⟩

def setRank (u : UnionFind) (x r : Nat) : UnionFind :=
  match u with
  | ⟨parent, rank⟩ => ⟨parent, rank.setIfInBounds x r⟩

def push (u : UnionFind) : Nat × UnionFind :=
  match u with
  | ⟨parent, rank⟩ =>
      let id := parent.size
      (id, ⟨parent.push id, rank.push 0⟩)

/-- Follows parents for at most `steps` steps and redirects what was passed. -/
def findWithin : (steps : Nat) → UnionFind → Nat → Nat × UnionFind
  | 0, u, x => (x, u)
  | steps + 1, u, x =>
      let p := u.parentOf x
      if p = x then (x, u)
      else
        let (root, u) := findWithin steps u p
        -- on the way back every element of the path is hung below the root
        (root, u.setParent x root)

/-- The root of an element. A path to a root passes every element at most once. -/
def find (u : UnionFind) (x : Nat) : Nat × UnionFind :=
  findWithin u.size u x

/-- The roots of several elements, from left to right. -/
def findAll (u : UnionFind) : List Nat → List Nat × UnionFind
  | [] => ([], u)
  | x :: rest =>
      let (root, u) := u.find x
      let (roots, u) := u.findAll rest
      (root :: roots, u)

/-- Joins two roots: the lower rank goes below, and of equal ranks the second one. -/
def link (u : UnionFind) (a b : Nat) : UnionFind :=
  let ra := u.rankOf a
  let rb := u.rankOf b
  if ra < rb then u.setParent a b
  else if rb < ra then u.setParent b a
  else (u.setParent b a).setRank a (ra + 1)

/-- Joins the classes of two elements, and says whether they were different. -/
def union (u : UnionFind) (x y : Nat) : Bool × UnionFind :=
  let (a, u) := u.find x
  let (b, u) := u.find y
  if a = b then (false, u) else (true, u.link a b)

/-! ## Number of elements -/

@[simp]
theorem size_setParent (u : UnionFind) (x p : Nat) : (u.setParent x p).size = u.size := by
  simp [setParent, size]

@[simp]
theorem size_setRank (u : UnionFind) (x r : Nat) : (u.setRank x r).size = u.size := by
  simp [setRank, size]

@[simp]
theorem size_push (u : UnionFind) : u.push.2.size = u.size + 1 := by
  simp [push, size]

@[simp]
theorem size_findWithin (steps : Nat) (u : UnionFind) (x : Nat) :
    (findWithin steps u x).2.size = u.size := by
  induction steps generalizing u x with
  | zero =>
      rfl
  | succ steps ih =>
      unfold findWithin
      by_cases h : u.parentOf x = x
      · simp [h]
      · simp [h, ih]

@[simp]
theorem size_find (u : UnionFind) (x : Nat) : (u.find x).2.size = u.size :=
  size_findWithin u.size u x

theorem size_link (u : UnionFind) (a b : Nat) : (u.link a b).size = u.size := by
  simp only [link]
  split
  · simp
  · split <;> simp

@[simp]
theorem size_union (u : UnionFind) (x y : Nat) : (u.union x y).2.size = u.size := by
  unfold union
  by_cases h : (u.find x).1 = ((u.find x).2.find y).1
  · simp [h]
  · simp [h, size_link]

end UnionFind

end Congruence

end StraightLine
