import Std.Data.HashMap
import StraightLine.Congruence.UnionFind
import StraightLine.Smt.Term

/-!
# TermGraph — terms shared as numbered nodes

A constant is a node by its name and sort, an application by the name of its function and the
nodes of its arguments. Equal terms get one node, and arguments are numbered before what they are
used in.

* `Node`, `TermGraph` — the nodes, their numbers and their classes;
* `TermGraph.intern` — the number of a term.
-/

namespace StraightLine

open Smt

namespace Congruence

inductive Node where
  | const (c : Constant)
  | app (function : String) (args : List Nat)
  deriving DecidableEq, Repr, Hashable

structure TermGraph where
  nodes : Array Node
  ids : Std.HashMap Node Nat
  classes : UnionFind

namespace TermGraph

def empty : TermGraph :=
  { nodes := #[], ids := ∅, classes := .empty }

/-- The number of a node, which is new if the node is. -/
def add (g : TermGraph) (node : Node) : Nat × TermGraph :=
  match g.ids[node]? with
  | some id => (id, g)
  | none =>
      match g with
      | ⟨nodes, ids, classes⟩ =>
          -- a new node starts in a class of its own, with the same number
          let (id, classes) := classes.push
          (id, ⟨nodes.push node, ids.insert node id, classes⟩)

mutual

/-- The number of a term; its arguments are numbered first, from left to right. -/
def intern (g : TermGraph) : Term → Nat × TermGraph
  | .const c => g.add (.const c)
  | .app f args =>
      let (ids, g) := g.internAll args
      g.add (.app f.name ids)

def internAll (g : TermGraph) : List Term → List Nat × TermGraph
  | [] => ([], g)
  | t :: rest =>
      let (id, g) := g.intern t
      let (ids, g) := g.internAll rest
      (id :: ids, g)

end

/-- The numbers of the two sides of each pair, in order. -/
def internPairs (g : TermGraph) : List (Term × Term) → List (Nat × Nat) × TermGraph
  | [] => ([], g)
  | (a, b) :: rest =>
      let (a, g) := g.intern a
      let (b, g) := g.intern b
      let (pairs, g) := g.internPairs rest
      ((a, b) :: pairs, g)

/-- Joins the classes of each pair. -/
def unionPairs (g : TermGraph) (pairs : List (Nat × Nat)) : TermGraph :=
  { g with classes := pairs.foldl (fun u p => (u.union p.1 p.2).2) g.classes }

end TermGraph

end Congruence

end StraightLine
