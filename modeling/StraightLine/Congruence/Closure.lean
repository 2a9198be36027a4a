import StraightLine.Congruence.TermGraph

/-!
# Closure — applications of one function to equal arguments are equal

The signature of an application is its function with the roots of its arguments. Two
applications of one signature belong to one class. A table holds one application for each
signature seen, and a list holds the applications that have yet to be looked up. When two classes
are joined, only the applications that use a member of the absorbed class can have got a new
signature, so only those are looked up again.

* `Closing` — classes, users of each class, and the table of signatures;
* `Closing.run` — looks up everything that is pending;
* `TermGraph.close` — the classes closed under application.

Every join costs one of the joins that are left, and without a join the list gets shorter; a
graph of `n` nodes allows fewer than `n` joins.
-/

namespace StraightLine

namespace Congruence

/-- The table of users: applications by the root of a class that some argument belongs to. -/
abbrev Uses : Type :=
  Std.HashMap Nat (List Nat)

/-- One application for each function with the roots of arguments. -/
abbrev Signatures : Type :=
  Std.HashMap (String × List Nat) Nat

structure Closing where
  classes : UnionFind
  uses : Uses
  signatures : Signatures

namespace Closing

/-- What is known after the application `id` has been looked up: nothing new to do, or two classes
joined and the users of the absorbed one. -/
inductive Found where
  | settled (state : Closing)
  | joined (moved : List Nat) (state : Closing)

/-- Joins the classes of the roots `a` and `b`; what used the absorbed root uses the other one. -/
def join (classes : UnionFind) (uses : Uses) (signatures : Signatures) (a b : Nat) : Found :=
  match classes.union a b with
  | (false, classes) => .settled ⟨classes, uses, signatures⟩
  | (true, classes) =>
      let (root, classes) := classes.find a
      -- the root that is no root any more
      let absorbed := if root = a then b else a
      let moved := uses.getD absorbed []
      let uses := uses.erase absorbed
      let uses := uses.insert root (moved ++ uses.getD root [])
      .joined moved ⟨classes, uses, signatures⟩

/-- Looks up the signature of an application. -/
def look (state : Closing) (id : Nat) (function : String) (args : List Nat) : Found :=
  match state with
  | ⟨classes, uses, signatures⟩ =>
      let (roots, classes) := classes.findAll args
      match signatures[(function, roots)]? with
      | none => .settled ⟨classes, uses, signatures.insert (function, roots) id⟩
      | some other =>
          let (a, classes) := classes.find other
          let (b, classes) := classes.find id
          join classes uses signatures a b

/-- Looks up the pending nodes and those that joins bring back, as long as `joins` are left. -/
def run (nodes : Array Node) (joins : Nat) (pending : List Nat) (state : Closing) : Closing :=
  match pending with
  | [] => state
  | id :: pending =>
      match nodes[id]? with
      | some (.app function args) =>
          match look state id function args with
          | .settled state => run nodes joins pending state
          | .joined moved state =>
              match joins with
              -- not reached: so many joins would leave less than one class
              | 0 => state
              | joins + 1 => run nodes joins (moved ++ pending) state
      | _ => run nodes joins pending state
  termination_by (joins, pending.length)

end Closing

namespace TermGraph

/-- The numbers of the applications, in order. -/
def applications (g : TermGraph) : List Nat :=
  (List.range g.nodes.size).filter fun id =>
    match g.nodes[id]? with
    | some (.app ..) => true
    | _ => false

/-- Notes the application `id` as a user of each argument's class. -/
def noteUses (id : Nat) (classes : UnionFind) (uses : Uses) : List Nat → UnionFind × Uses
  | [] => (classes, uses)
  | arg :: rest =>
      let (root, classes) := classes.find arg
      noteUses id classes (uses.insert root (id :: uses.getD root [])) rest

/-- The users of every class. -/
def collectUses (nodes : Array Node) :
    (applications : List Nat) → UnionFind → Uses → UnionFind × Uses
  | [], classes, uses => (classes, uses)
  | id :: rest, classes, uses =>
      match nodes[id]? with
      | some (.app _ args) =>
          let (classes, uses) := noteUses id classes uses args
          collectUses nodes rest classes uses
      | _ => collectUses nodes rest classes uses

/-- Joins classes until applications of one function to equal arguments are in one class. The last
application is looked up first. -/
def close (g : TermGraph) : TermGraph :=
  match g with
  | ⟨nodes, ids, classes⟩ =>
      let apps := applications ⟨nodes, ids, classes⟩
      let (classes, uses) := collectUses nodes apps classes ∅
      ⟨nodes, ids, (Closing.run nodes nodes.size apps.reverse ⟨classes, uses, ∅⟩).classes⟩

end TermGraph

end Congruence

end StraightLine
