import StraightLine.Proofs.Congruence.Sharing

/-!
# Interning — a number for each term, once and for all

A node is in the graph once, and it is the nodes that tell terms apart: the name of a function and
the numbers of the arguments. So two terms have one number exactly if they are alike, and a term
that is interned again finds its number and changes nothing.

* `TermGraph.Shared.eq_of_alike` — terms that are alike have one number;
* `TermGraph.Shared.intern_again` — interning a term again;
* `TermGraph.Interned` — everything about a graph in which terms were interned;
* `TermGraph.interned_internAll` — any terms may be interned, in any order.
-/

namespace StraightLine

open Smt

namespace Congruence

namespace TermGraph

theorem Shared.nodup_nodes {g : TermGraph} (hg : g.Shared) : g.nodes.toList.Nodup := by
  rw [List.nodup_iff_pairwise_ne, List.pairwise_iff_getElem]
  intro i j hi hj hij heq
  have hnode : g.nodes[i]? = some g.nodes.toList[j] := by
    rw [← Array.getElem?_toList, List.getElem?_eq_getElem hi, heq]
  have hnode' : g.nodes[j]? = some g.nodes.toList[j] := by
    rw [← Array.getElem?_toList, List.getElem?_eq_getElem hj]
  exact absurd (id_unique hg.ids_iff hnode hnode') (Nat.ne_of_lt hij)

/-! ## Terms that are alike -/

mutual

/-- Terms that are alike have one node, since their arguments have the same numbers. -/
theorem Shared.eq_of_alike {g : TermGraph} (hg : g.Shared) : ∀ {s t : Term} {i j : Nat},
    Alike s t → Represents g.nodes s i → Represents g.nodes t j → i = j
  | .const _, .const _, _, _, h, hs, ht => id_unique hg.ids_iff hs (h ▸ ht)
  | .app _ _, .app _ _, _, _, ⟨hname, hargs⟩, ⟨_, hs, hss⟩, ⟨_, ht, hts⟩ => by
      have hids := Shared.eq_of_allAlike hg hargs hss hts
      exact id_unique hg.ids_iff (hname ▸ hids ▸ hs) ht

theorem Shared.eq_of_allAlike {g : TermGraph} (hg : g.Shared) : ∀ {ss ts : List Term}
    {is js : List Nat}, AllAlike ss ts → AllRepresent g.nodes ss is → AllRepresent g.nodes ts js →
      is = js
  | [], [], _, _, _, hs, ht => Eq.trans hs (Eq.symm ht)
  | _ :: _, _ :: _, _, _, ⟨h, hrest⟩, ⟨_, _, hids, hs, hss⟩, ⟨_, _, hids', ht, hts⟩ => by
      rw [hids, hids', Shared.eq_of_alike hg h hs ht, Shared.eq_of_allAlike hg hrest hss hts]

end

theorem Shared.id_eq_iff {g : TermGraph} (hg : g.Shared) {s t : Term} {i j : Nat}
    (hs : Represents g.nodes s i) (ht : Represents g.nodes t j) : i = j ↔ Alike s t := by
  constructor
  · rintro rfl
    exact hs.alike ht
  · intro h
    exact hg.eq_of_alike h hs ht

/-! ## Interning again -/

theorem Shared.add_again {g : TermGraph} (hg : g.Shared) {node : Node} {id : Nat}
    (h : g.nodes[id]? = some node) : g.add node = (id, g) := by
  rw [add, (hg.ids_iff node id).2 h]

mutual

/-- A term that has a number keeps it, and nothing is added. -/
theorem Shared.intern_again {g : TermGraph} (hg : g.Shared) : ∀ {t : Term} {id : Nat},
    Represents g.nodes t id → g.intern t = (id, g)
  | .const _, _, h => hg.add_again h
  | .app f args, _, ⟨ids, hnode, hargs⟩ => by
      rw [intern, Shared.internAll_again hg hargs]
      exact hg.add_again hnode

theorem Shared.internAll_again {g : TermGraph} (hg : g.Shared) : ∀ {ts : List Term}
    {ids : List Nat}, AllRepresent g.nodes ts ids → g.internAll ts = (ids, g)
  | [], _, h => congrArg (·, g) (Eq.symm h)
  | t :: rest, _, ⟨id, more, hids, ht, hrest⟩ => by
      rw [internAll, Shared.intern_again hg ht, hids]
      simp only [Shared.internAll_again hg hrest]

end

/-! ## Any terms in any order -/

theorem AllRepresent.length_eq {nodes : Array Node} {ts : List Term} {ids : List Nat}
    (h : AllRepresent nodes ts ids) : ids.length = ts.length := by
  induction ts generalizing ids with
  | nil =>
      cases h
      rfl
  | cons t rest ih =>
      rcases h with ⟨id, more, rfl, _, hrest⟩
      simp [ih hrest]

theorem AllRepresent.of_mem_zip {nodes : Array Node} {ts : List Term} {ids : List Nat}
    (h : AllRepresent nodes ts ids) : ∀ p ∈ ts.zip ids, Represents nodes p.1 p.2 := by
  induction ts generalizing ids with
  | nil =>
      intro p hp
      cases hp
  | cons t rest ih =>
      rcases h with ⟨id, more, rfl, ht, hrest⟩
      intro p hp
      rcases List.mem_cons.1 hp with rfl | hp
      · exact ht
      · exact ih hrest p hp

/-- A graph in which the terms `ts` were interned, with the answers `ids`. -/
structure Interned (ts : List Term) (ids : List Nat) (g : TermGraph) : Prop where
  nodup : g.nodes.toList.Nodup
  ids_iff : ∀ (node : Node) (id : Nat), g.ids[node]? = some id ↔ g.nodes[id]? = some node
  size_classes : g.classes.size = g.nodes.size
  args_lt : ∀ (id : Nat) (f : String) (args : List Nat), g.nodes[id]? = some (.app f args) →
    ∀ arg ∈ args, arg < id
  length : ids.length = ts.length
  represents : ∀ p ∈ ts.zip ids, Represents g.nodes p.1 p.2
  /-- Whatever is interned later, numbers stay with their nodes and with their terms. -/
  keeps : ∀ later : List Term,
    Extends g.nodes (g.internAll later).2.nodes ∧
    (∀ (node : Node) (id : Nat), g.ids[node]? = some id →
      (g.internAll later).2.ids[node]? = some id) ∧
    ∀ p ∈ ts.zip ids, (g.internAll later).2.intern p.1 = (p.2, (g.internAll later).2)
  id_eq_iff : ∀ p ∈ ts.zip ids, ∀ q ∈ ts.zip ids, p.2 = q.2 ↔ Alike p.1 q.1

/-- Terms that are interned one after another, whatever they are, get the same number exactly if
they are the same up to the sorts that their function symbols have, and keep it. -/
theorem interned_internAll (ts : List Term) :
    Interned ts (TermGraph.empty.internAll ts).1 (TermGraph.empty.internAll ts).2 := by
  rcases @internAll_shared ts _ Shared.empty with ⟨hg, _, hreps⟩
  generalize TermGraph.empty.internAll ts = interned at hg hreps
  rcases interned with ⟨ids, g⟩
  have hzip := AllRepresent.of_mem_zip hreps
  refine
    { nodup := hg.nodup_nodes
      ids_iff := hg.ids_iff
      size_classes := hg.size_classes
      args_lt := fun _ _ _ h => hg.args_lt h
      length := AllRepresent.length_eq hreps
      represents := hzip
      keeps := ?_
      id_eq_iff := fun p hp q hq => hg.id_eq_iff (hzip p hp) (hzip q hq) }
  intro later
  rcases @internAll_shared later _ hg with ⟨hshared, hext, _⟩
  refine ⟨hext, ?_, ?_⟩
  · intro node id hid
    exact (hshared.ids_iff node id).2 (hext id node ((hg.ids_iff node id).1 hid))
  · intro p hp
    exact hshared.intern_again ((hzip p hp).extends hext)

-- two symbols of one name are one function to the graph, two constants of one name are not
example : (TermGraph.empty.internAll
    [.const ⟨"a", ⟨"S"⟩⟩, .app ⟨"f", [⟨"S"⟩], ⟨"S"⟩⟩ [.const ⟨"a", ⟨"S"⟩⟩],
      .app ⟨"f", [⟨"S"⟩], ⟨"T"⟩⟩ [.const ⟨"a", ⟨"S"⟩⟩], .const ⟨"a", ⟨"T"⟩⟩]).1 =
    [0, 1, 1, 2] := by
  cbv

end TermGraph

end Congruence

end StraightLine
