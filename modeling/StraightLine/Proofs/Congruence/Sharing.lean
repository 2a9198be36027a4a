import StraightLine.Congruence.TermGraph
import StraightLine.Proofs.Congruence.Roots
import StraightLine.Proofs.Smt.Interpretation

/-!
# Sharing — every term is one node

While terms are interned, a node is added only if it is new, and after its arguments. So a number
stands for one term, and a term has one number.

* `TermGraph.Shared` — the invariant of a graph in which nothing is joined yet;
* `Represents` — the term that a number stands for;
* `Alike` — what the terms of one node have in common;
* `Extends` — later graphs keep the nodes of earlier ones;
* `intern_shared`, `intern_spec`, `internPairs_spec` — what interning adds, and what it adds for
  well-sorted terms.
-/

namespace StraightLine

open Smt

namespace Congruence

/-! ## Elements that stand alone -/

namespace UnionFind

/-- Elements that stand alone are ranked in any way. -/
theorem Ranked.of_apart {u : UnionFind} (hsize : u.rank.size = u.size)
    (h : ∀ x, u.parentOf x = x) : u.Ranked where
  rank_size := hsize
  parentOf_lt := by
    intro x hx
    rwa [h x]
  rankOf_lt := by
    intro x hx
    exact absurd (h x) hx

end UnionFind

/-! ## Terms of a graph -/

mutual

/-- The node `id` is the term. -/
def Represents (nodes : Array Node) : Term → (id : Nat) → Prop
  | .const c, id => nodes[id]? = some (.const c)
  | .app f args, id =>
      ∃ ids, nodes[id]? = some (.app f.name ids) ∧ AllRepresent nodes args ids

def AllRepresent (nodes : Array Node) : List Term → (ids : List Nat) → Prop
  | [], ids => ids = []
  | t :: rest, ids =>
      ∃ id more, ids = id :: more ∧ Represents nodes t id ∧ AllRepresent nodes rest more

end

/-- Every node of the first graph is a node of the second, with its number. -/
def Extends (before after : Array Node) : Prop :=
  ∀ (id : Nat) (node : Node), before[id]? = some node → after[id]? = some node

theorem Extends.refl (nodes : Array Node) : Extends nodes nodes :=
  fun _ _ h => h

theorem Extends.trans {a b c : Array Node} (h : Extends a b) (h' : Extends b c) : Extends a c :=
  fun id node hid => h' id node (h id node hid)

theorem Extends.push (nodes : Array Node) (node : Node) : Extends nodes (nodes.push node) := by
  intro id other h
  have hlt : id < nodes.size := (Array.getElem?_eq_some_iff.1 h).1
  rwa [Array.getElem?_push_lt hlt, ← Array.getElem?_eq_getElem hlt]

mutual

theorem Represents.extends {a b : Array Node} (hab : Extends a b) :
    ∀ {t : Term} {id : Nat}, Represents a t id → Represents b t id
  | .const c, id, h => hab id (.const c) h
  | .app f _, id, ⟨ids, hnode, hargs⟩ =>
      ⟨ids, hab id (.app f.name ids) hnode, AllRepresent.extends hab hargs⟩

theorem AllRepresent.extends {a b : Array Node} (hab : Extends a b) :
    ∀ {ts : List Term} {ids : List Nat}, AllRepresent a ts ids → AllRepresent b ts ids
  | [], _, h => h
  | _ :: _, _, ⟨id, more, hids, ht, hrest⟩ =>
      ⟨id, more, hids, Represents.extends hab ht, AllRepresent.extends hab hrest⟩

end

/-- A node for each constant of a term. -/
def HasConstants (nodes : Array Node) (cs : List Constant) : Prop :=
  ∀ c ∈ cs, ∃ id : Nat, nodes[id]? = some (.const c)

mutual

theorem Represents.hasConstants {nodes : Array Node} :
    ∀ {t : Term} {id : Nat}, Represents nodes t id → HasConstants nodes t.constants
  | .const c, id, h => by
      intro d hd
      have hdc : d = c := by
        simpa [Term.constants] using hd
      exact ⟨id, hdc ▸ h⟩
  | .app _ _, _, ⟨_, _, hargs⟩ => by
      simpa [Term.constants] using AllRepresent.hasConstants hargs

theorem AllRepresent.hasConstants {nodes : Array Node} :
    ∀ {ts : List Term} {ids : List Nat}, AllRepresent nodes ts ids →
      HasConstants nodes (Term.constantsOf ts)
  | [], _, _ => by
      intro c hc
      cases hc
  | _ :: _, _, ⟨_, _, _, ht, hrest⟩ => by
      intro c hc
      rcases List.mem_append.1 hc with hc | hc
      · exact Represents.hasConstants ht c hc
      · exact AllRepresent.hasConstants hrest c hc

end

/-! ## Terms of one node -/

mutual

/-- The same term, up to the sorts that its function symbols have. -/
def Alike : Term → Term → Prop
  | .const c, .const d => c = d
  | .app f ss, .app g ts => f.name = g.name ∧ AllAlike ss ts
  | _, _ => False

def AllAlike : List Term → List Term → Prop
  | [], [] => True
  | s :: ss, t :: ts => Alike s t ∧ AllAlike ss ts
  | _, _ => False

end

mutual

/-- A node keeps the name of a function and the numbers of its arguments. -/
theorem Represents.alike {nodes : Array Node} : ∀ {s t : Term} {id : Nat},
    Represents nodes s id → Represents nodes t id → Alike s t
  | .const c, .const d, id, h, h' => by
      have hnode := Option.some.inj (Eq.trans (Eq.symm h) h')
      cases hnode
      rfl
  | .const c, .app g ts, id, h, ⟨ids, h', _⟩ => by
      have hnode := Option.some.inj (Eq.trans (Eq.symm h) h')
      cases hnode
  | .app f ss, .const d, id, ⟨ids, h, _⟩, h' => by
      have hnode := Option.some.inj (Eq.trans (Eq.symm h) h')
      cases hnode
  | .app f ss, .app g ts, id, ⟨ids, h, hss⟩, ⟨ids', h', hts⟩ => by
      have hnode := Option.some.inj (Eq.trans (Eq.symm h) h')
      injection hnode with hname hids
      subst hids
      exact ⟨hname, AllRepresent.alike hss hts⟩

theorem AllRepresent.alike {nodes : Array Node} : ∀ {ss ts : List Term} {ids : List Nat},
    AllRepresent nodes ss ids → AllRepresent nodes ts ids → AllAlike ss ts
  | [], [], _, _, _ => trivial
  | [], _ :: _, _, h, ⟨_, _, h', _⟩ => by
      cases h.symm.trans h'
  | _ :: _, [], _, ⟨_, _, h, _⟩, h' => by
      cases h.symm.trans h'
  | _ :: _, _ :: _, _, ⟨id, more, h, hrep, hrest⟩, ⟨id', more', h', hrep', hrest'⟩ => by
      cases h.symm.trans h'
      exact ⟨Represents.alike hrep hrep', AllRepresent.alike hrest hrest'⟩

end

mutual

/-- A signature has one symbol for each name, so well-sorted terms that are alike are the same. -/
theorem Alike.eq_of_wellSorted {sig : Signature} : ∀ {s t : Term}, Alike s t → s.WellSorted sig →
    t.WellSorted sig → s = t
  | .const _, .const _, h, _, _ => congrArg Term.const h
  | .app f ss, .app g ts, ⟨hname, hargs⟩, hs, ht => by
      have hfg : f = g := by
        rw [← hs.1, ← ht.1, hname]
      rw [hfg, AllAlike.eq_of_wellSorted hargs hs.2.2 ht.2.2]

theorem AllAlike.eq_of_wellSorted {sig : Signature} : ∀ {ss ts : List Term}, AllAlike ss ts →
    Term.AllWellSorted sig ss → Term.AllWellSorted sig ts → ss = ts
  | [], [], _, _, _ => rfl
  | _ :: _, _ :: _, ⟨h, hrest⟩, hs, ht => by
      rw [Alike.eq_of_wellSorted h hs.1 ht.1, AllAlike.eq_of_wellSorted hrest hs.2 ht.2]

end

/-- A number stands for at most one well-sorted term. -/
theorem Represents.unique {nodes : Array Node} {sig : Signature} {s t : Term} {id : Nat}
    (hs : s.WellSorted sig) (ht : t.WellSorted sig) (h : Represents nodes s id)
    (h' : Represents nodes t id) : s = t :=
  (h.alike h').eq_of_wellSorted hs ht

/-! ## Numbers of a graph -/

theorem Represents.lt_size {nodes : Array Node} {t : Term} {id : Nat} (h : Represents nodes t id) :
    id < nodes.size := by
  cases t with
  | const c =>
      exact (Array.getElem?_eq_some_iff.1 h).1
  | app f args =>
      rcases h with ⟨ids, hnode, _⟩
      exact (Array.getElem?_eq_some_iff.1 hnode).1

theorem AllRepresent.lt_size {nodes : Array Node} {ts : List Term} {ids : List Nat}
    (h : AllRepresent nodes ts ids) : ∀ id ∈ ids, id < nodes.size := by
  induction ts generalizing ids with
  | nil =>
      cases h
      intro id hid
      cases hid
  | cons t rest ih =>
      rcases h with ⟨id, more, rfl, ht, hrest⟩
      intro i hi
      rcases List.mem_cons.1 hi with rfl | hi
      · exact Represents.lt_size ht
      · exact ih hrest i hi

/-! ## Pairs of terms -/

/-- The numbers of the two sides of each pair. -/
def PairsRepresent (nodes : Array Node) : List (Term × Term) → List (Nat × Nat) → Prop :=
  List.Forall₂ fun p q => Represents nodes p.1 q.1 ∧ Represents nodes p.2 q.2

theorem PairsRepresent.extends {a b : Array Node} (hab : Extends a b)
    {pairs : List (Term × Term)} {ids : List (Nat × Nat)} (h : PairsRepresent a pairs ids) :
    PairsRepresent b pairs ids :=
  h.imp fun _ _ hp => ⟨hp.1.extends hab, hp.2.extends hab⟩

theorem PairsRepresent.exists_ids {nodes : Array Node} {pairs : List (Term × Term)}
    {ids : List (Nat × Nat)} (h : PairsRepresent nodes pairs ids) :
    ∀ p ∈ pairs, ∃ q ∈ ids, Represents nodes p.1 q.1 ∧ Represents nodes p.2 q.2 := by
  induction h with
  | nil =>
      intro p hp
      cases hp
  | @cons p q _ _ hrep _ ih =>
      intro p' hp
      rcases List.mem_cons.1 hp with rfl | hp
      · exact ⟨q, List.mem_cons_self, hrep⟩
      · rcases ih p' hp with ⟨q', hq', hrep'⟩
        exact ⟨q', List.mem_cons_of_mem q hq', hrep'⟩

theorem PairsRepresent.exists_terms {nodes : Array Node} {pairs : List (Term × Term)}
    {ids : List (Nat × Nat)} (h : PairsRepresent nodes pairs ids) :
    ∀ q ∈ ids, ∃ p ∈ pairs, Represents nodes p.1 q.1 ∧ Represents nodes p.2 q.2 := by
  induction h with
  | nil =>
      intro q hq
      cases hq
  | @cons p q _ _ hrep _ ih =>
      intro q' hq
      rcases List.mem_cons.1 hq with rfl | hq
      · exact ⟨p, List.mem_cons_self, hrep⟩
      · rcases ih q' hq with ⟨p', hp', hrep'⟩
        exact ⟨p', List.mem_cons_of_mem p hp', hrep'⟩

theorem PairsRepresent.lt_size {nodes : Array Node} {pairs : List (Term × Term)}
    {ids : List (Nat × Nat)} (h : PairsRepresent nodes pairs ids) :
    ∀ q ∈ ids, q.1 < nodes.size ∧ q.2 < nodes.size := by
  intro q hq
  rcases h.exists_terms q hq with ⟨_, _, hrep₁, hrep₂⟩
  exact ⟨hrep₁.lt_size, hrep₂.lt_size⟩

/-- The constants of represented sides are nodes. -/
theorem PairsRepresent.hasConstants {nodes : Array Node} {pairs : List (Term × Term)}
    {ids : List (Nat × Nat)} (h : PairsRepresent nodes pairs ids) {p : Term × Term}
    (hp : p ∈ pairs) : HasConstants nodes (p.1.constants ++ p.2.constants) := by
  rcases h.exists_ids p hp with ⟨_, _, hrep₁, hrep₂⟩
  intro c hc
  rcases List.mem_append.1 hc with hc | hc
  · exact hrep₁.hasConstants c hc
  · exact hrep₂.hasConstants c hc

/-! ## Interning -/

namespace TermGraph

/-- Nodes are numbered once, arguments before what they are used in, and no classes are joined. -/
structure Shared (g : TermGraph) : Prop where
  ids_iff : ∀ (node : Node) (id : Nat), g.ids[node]? = some id ↔ g.nodes[id]? = some node
  args_lt : ∀ {id : Nat} {f : String} {args : List Nat},
    g.nodes[id]? = some (.app f args) → ∀ arg ∈ args, arg < id
  size_classes : g.classes.size = g.nodes.size
  size_ranks : g.classes.rank.size = g.classes.size
  apart : ∀ x, g.classes.parentOf x = x

/-- A node has one number. -/
theorem id_unique {g : TermGraph}
    (h : ∀ (node : Node) (id : Nat), g.ids[node]? = some id ↔ g.nodes[id]? = some node)
    {node : Node} {i j : Nat} (hi : g.nodes[i]? = some node) (hj : g.nodes[j]? = some node) :
    i = j :=
  Option.some.inj (((h node i).2 hi).symm.trans ((h node j).2 hj))

/-- Every node is a well-sorted term. -/
def Covered (sig : Signature) (nodes : Array Node) : Prop :=
  ∀ id < nodes.size, ∃ t : Term, t.WellSorted sig ∧ Represents nodes t id

theorem Shared.empty : Shared TermGraph.empty where
  ids_iff := by
    intro node id
    simp [TermGraph.empty]
  args_lt := by
    intro id f args h
    simp [TermGraph.empty] at h
  size_classes := rfl
  size_ranks := rfl
  apart := fun x => UnionFind.parentOf_of_size_le (Nat.zero_le x)

/-- A node that is new, with arguments among the nodes, may be appended. -/
theorem Shared.push {nodes : Array Node} {ids : Std.HashMap Node Nat} {classes : UnionFind}
    (hg : Shared ⟨nodes, ids, classes⟩) {node : Node} (hid : ids[node]? = none)
    (hargs : ∀ f args, node = .app f args → ∀ arg ∈ args, arg < nodes.size) :
    Shared ⟨nodes.push node, ids.insert node nodes.size, classes.push.2⟩ where
  ids_iff := by
    -- the table has an entry for every node, so the node is none of them
    have hnew : ∀ id : Nat, nodes[id]? ≠ some node := by
      intro id h
      have h' := (hg.ids_iff node id).2 h
      rw [hid] at h'
      cases h'
    intro other id
    have hother := hg.ids_iff other id
    simp only at hother ⊢
    rw [Std.HashMap.getElem?_insert, Array.getElem?_push]
    by_cases hlast : id = nodes.size
    · -- the next number belonged to no node before
      subst hlast
      have hnone : nodes[nodes.size]? ≠ some other := by
        simp
      have hids : ids[other]? ≠ some nodes.size := fun h => hnone (hother.1 h)
      by_cases he : node = other
      · simp [he]
      · simp [he, hids]
    · by_cases he : node = other
      · subst he
        simp [hlast, hnew, Ne.symm hlast]
      · simp [he, hlast, hother]
  args_lt := by
    intro id f args h arg harg
    rcases Nat.lt_or_ge id nodes.size with hlt | hge
    · rw [Array.getElem?_push_lt hlt, ← Array.getElem?_eq_getElem hlt] at h
      exact hg.args_lt h arg harg
    · rw [Array.getElem?_push] at h
      split at h
      case isTrue he =>
        cases Option.some.inj h
        exact he ▸ hargs f args rfl arg harg
      case isFalse =>
        rw [Array.getElem?_eq_none hge] at h
        cases h
  size_classes := by
    simpa [UnionFind.push, UnionFind.size] using hg.size_classes
  size_ranks := by
    simpa [UnionFind.push, UnionFind.size] using hg.size_ranks
  apart := fun x => (UnionFind.parentOf_push classes x).trans (hg.apart x)

/-- A node with arguments among the nodes is found or appended. -/
theorem add_spec {g : TermGraph} (hg : g.Shared) (node : Node)
    (hargs : ∀ f args, node = .app f args → ∀ arg ∈ args, arg < g.nodes.size) :
    (g.add node).2.Shared ∧ Extends g.nodes (g.add node).2.nodes ∧
      (g.add node).2.nodes[(g.add node).1]? = some node ∧
      ∀ id < (g.add node).2.nodes.size, id < g.nodes.size ∨ id = (g.add node).1 := by
  unfold add
  cases hid : g.ids[node]? with
  | some id =>
      exact ⟨hg, Extends.refl _, (hg.ids_iff node id).1 hid, fun _ h => Or.inl h⟩
  | none =>
      rcases g with ⟨nodes, ids, classes⟩
      -- there are as many elements as nodes, so both counts give the same new number
      have hsize : classes.push.1 = nodes.size := hg.size_classes
      simp only [hsize]
      refine ⟨hg.push hid hargs, Extends.push nodes node, by simp, ?_⟩
      intro id h
      have hlt : id < nodes.size + 1 := by
        simpa using h
      exact Nat.lt_succ_iff_lt_or_eq.1 hlt

/-- The arguments of a node are those of its term. -/
theorem node_args_lt {nodes : Array Node} {ts : List Term} {ids : List Nat}
    (h : AllRepresent nodes ts ids) {function : String} :
    ∀ f args, Node.app function ids = .app f args → ∀ arg ∈ args, arg < nodes.size := by
  intro f args he
  cases he
  exact h.lt_size

/-- What a step of interning keeps. -/
structure Grown (sig : Signature) (g h : TermGraph) : Prop where
  shared : h.Shared
  extends_nodes : Extends g.nodes h.nodes
  covered : Covered sig g.nodes → Covered sig h.nodes

theorem Grown.refl {sig : Signature} {g : TermGraph} (hg : g.Shared) : Grown sig g g where
  shared := hg
  extends_nodes := Extends.refl _
  covered := id

theorem Grown.trans {sig : Signature} {g h k : TermGraph} (hgh : Grown sig g h)
    (hhk : Grown sig h k) : Grown sig g k where
  shared := hhk.shared
  extends_nodes := hgh.extends_nodes.trans hhk.extends_nodes
  covered := fun hg => hhk.covered (hgh.covered hg)

/-- Appending the node of a well-sorted term. -/
theorem grown_add {sig : Signature} {g : TermGraph} (hg : g.Shared) {node : Node} {t : Term}
    (ht : t.WellSorted sig)
    (hargs : ∀ f args, node = .app f args → ∀ arg ∈ args, arg < g.nodes.size)
    (hnode : Represents (g.add node).2.nodes t (g.add node).1) : Grown sig g (g.add node).2 := by
  rcases add_spec hg node hargs with ⟨hshared, hext, _, hids⟩
  refine ⟨hshared, hext, ?_⟩
  intro hcov id hid
  -- every other node is an old one
  rcases hids id hid with hid | rfl
  · rcases hcov id hid with ⟨s, hs, hrep⟩
    exact ⟨s, hs, hrep.extends hext⟩
  · exact ⟨t, ht, hnode⟩

mutual

/-- Interning a term answers with its number. -/
theorem intern_shared : ∀ {t : Term} {g : TermGraph}, g.Shared → (g.intern t).2.Shared ∧
    Extends g.nodes (g.intern t).2.nodes ∧ Represents (g.intern t).2.nodes t (g.intern t).1
  | .const c, g, hg => by
      rcases add_spec hg (.const c) (by rintro _ _ ⟨⟩) with ⟨hshared, hext, hnode, _⟩
      exact ⟨hshared, hext, hnode⟩
  | .app f args, g, hg => by
      -- the arguments come first, so their numbers are those of nodes
      rcases internAll_shared hg with ⟨hshared, hext, hreps⟩
      simp only [intern]
      generalize g.internAll args = interned at hshared hext hreps
      rcases interned with ⟨ids, h⟩
      rcases add_spec hshared (.app f.name ids) (node_args_lt hreps) with
        ⟨hshared', hext', hnode, _⟩
      exact ⟨hshared', hext.trans hext', ids, hnode, hreps.extends hext'⟩

theorem internAll_shared : ∀ {ts : List Term} {g : TermGraph}, g.Shared →
    (g.internAll ts).2.Shared ∧ Extends g.nodes (g.internAll ts).2.nodes ∧
      AllRepresent (g.internAll ts).2.nodes ts (g.internAll ts).1
  | [], _, hg => ⟨hg, Extends.refl _, rfl⟩
  | t :: rest, g, hg => by
      rcases intern_shared (t := t) hg with ⟨hshared, hext, hrep⟩
      rcases @internAll_shared rest _ hshared with ⟨hshared', hext', hreps⟩
      exact ⟨hshared', hext.trans hext', _, _, rfl, hrep.extends hext', hreps⟩

end

mutual

/-- The new nodes for a well-sorted term are well-sorted terms. -/
theorem covered_intern {sig : Signature} : ∀ {t : Term} {g : TermGraph}, g.Shared →
    t.WellSorted sig → Covered sig g.nodes → Covered sig (g.intern t).2.nodes
  | .const c, g, hg, ht, hcov => by
      have hrep := (intern_shared (t := .const c) hg).2.2
      exact (grown_add hg ht (by rintro _ _ ⟨⟩) hrep).covered hcov
  | .app f args, g, hg, ht, hcov => by
      have hrep := (intern_shared (t := .app f args) hg).2.2
      rcases @internAll_shared args _ hg with ⟨hshared, _, hreps⟩
      have hcov' := covered_internAll hg ht.2.2 hcov
      simp only [intern] at hrep ⊢
      exact (grown_add hshared ht (node_args_lt hreps) hrep).covered hcov'

theorem covered_internAll {sig : Signature} : ∀ {ts : List Term} {g : TermGraph}, g.Shared →
    Term.AllWellSorted sig ts → Covered sig g.nodes → Covered sig (g.internAll ts).2.nodes
  | [], _, _, _, hcov => hcov
  | t :: rest, g, hg, ht, hcov => by
      have hshared := (intern_shared (t := t) hg).1
      exact @covered_internAll sig rest _ hshared ht.2 (covered_intern hg ht.1 hcov)

end

theorem intern_spec {sig : Signature} {t : Term} {g : TermGraph} (hg : g.Shared)
    (ht : t.WellSorted sig) : Grown sig g (g.intern t).2 ∧
      Represents (g.intern t).2.nodes t (g.intern t).1 := by
  rcases intern_shared (t := t) hg with ⟨hshared, hext, hrep⟩
  exact ⟨⟨hshared, hext, covered_intern hg ht⟩, hrep⟩

theorem internPairs_spec {sig : Signature} {pairs : List (Term × Term)} {g : TermGraph}
    (hg : g.Shared) (hpairs : ∀ p ∈ pairs, p.1.WellSorted sig ∧ p.2.WellSorted sig) :
    Grown sig g (g.internPairs pairs).2 ∧
      PairsRepresent (g.internPairs pairs).2.nodes pairs (g.internPairs pairs).1 := by
  induction pairs generalizing g with
  | nil =>
      exact ⟨Grown.refl hg, .nil⟩
  | cons p rest ih =>
      rcases p with ⟨s, t⟩
      rcases hpairs _ List.mem_cons_self with ⟨hs, ht⟩
      rcases intern_spec hg hs with ⟨hgrown, hrep⟩
      rcases intern_spec hgrown.shared ht with ⟨hgrown', hrep'⟩
      rcases ih hgrown'.shared (fun q hq => hpairs q (List.mem_cons_of_mem _ hq)) with
        ⟨hgrown'', hreps⟩
      have hext := hgrown''.extends_nodes
      refine ⟨hgrown.trans (hgrown'.trans hgrown''), .cons ⟨?_, ?_⟩ hreps⟩
      · exact hrep.extends (hgrown'.extends_nodes.trans hext)
      · exact hrep'.extends hext

end TermGraph

end Congruence

end StraightLine
