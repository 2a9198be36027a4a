import Std.Data.String.ToNat
import StraightLine.Congruence
import StraightLine.Proofs.Congruence.LeastCongruence
import StraightLine.Proofs.Congruence.Literals

/-!
# ClassModel — one element for each class

The classes of a closed graph are the carrier of an interpretation, and the model names them: every
constant gets the name of its class, and different classes get different names.

* `anyJoined_iff` — whether some pair lies in one class;
* `modelOf_spec` — the entries of the model;
* `classInterpretation`, `plainValue_eq_rootOf` — the interpretation whose elements are the roots;
* `nodeValue`, `isCongruence_nodeValue` — any other interpretation relates nodes of equal value.
-/

namespace StraightLine

open Smt

universe u

namespace Congruence

/-! ## Looking for a pair in one class -/

theorem anyJoined_iff {classes : UnionFind} (h : classes.Ranked) {pairs : List (Nat × Nat)} :
    anyJoined classes pairs = true ↔ ∃ p ∈ pairs, classes.rootOf p.1 = classes.rootOf p.2 := by
  induction pairs generalizing classes with
  | nil =>
      simp [anyJoined]
  | cons p rest ih =>
      have h₁ := h.find p.1
      have hroot : ∀ z, ((classes.find p.1).2.find p.2).2.rootOf z = classes.rootOf z := by
        intro z
        rw [UnionFind.rootOf_find h₁, UnionFind.rootOf_find h]
      have ha : (classes.find p.1).1 = classes.rootOf p.1 := rfl
      have hb : ((classes.find p.1).2.find p.2).1 = classes.rootOf p.2 :=
        UnionFind.rootOf_find h p.1 p.2
      simp only [anyJoined, Bool.or_eq_true, beq_iff_eq, ha, hb, ih (h₁.find p.2), hroot,
        List.exists_mem_cons_iff]

/-! ## Entries of the model -/

theorem elementName_injective {s : UninterpretedSort} {m n : Nat}
    (h : elementName s m = elementName s n) : m = n := by
  have h' := (String.append_right_inj _).1 h
  exact Nat.repr_injective h'

/-- The number of a root, which is new if the root is. -/
def numberOf (numbering : Numbering) (root : Nat) : Nat × Numbering :=
  match numbering[root]? with
  | some number => (number, numbering)
  | none => (numbering.size, numbering.insert root numbering.size)

/-- Different roots have different numbers, and all numbers are used. -/
structure Numbered (numbering : Numbering) : Prop where
  lt_size : ∀ {r n : Nat}, numbering[r]? = some n → n < numbering.size
  injective : ∀ {r s n : Nat}, numbering[r]? = some n → numbering[s]? = some n → r = s

theorem Numbered.empty : Numbered ∅ where
  lt_size := by
    intro r n h
    simp at h
  injective := by
    intro r s n h
    simp at h

theorem numberOf_spec {numbering : Numbering} (h : Numbered numbering) (root : Nat) :
    Numbered (numberOf numbering root).2 ∧
      (numberOf numbering root).2[root]? = some (numberOf numbering root).1 ∧
      ∀ {r n : Nat}, numbering[r]? = some n → (numberOf numbering root).2[r]? = some n := by
  unfold numberOf
  cases hroot : numbering[root]? with
  | some number =>
      exact ⟨h, hroot, fun h => h⟩
  | none =>
      have hmem : root ∉ numbering := by
        rw [Std.HashMap.mem_iff_isSome_getElem?, hroot]
        exact Bool.false_ne_true
      have hsize : (numbering.insert root numbering.size).size = numbering.size + 1 := by
        rw [Std.HashMap.size_insert, if_neg hmem]
      -- the new number is larger than all others
      have hget : ∀ {r n : Nat}, (numbering.insert root numbering.size)[r]? = some n →
          (r = root ∧ n = numbering.size) ∨ numbering[r]? = some n := by
        intro r n hr
        rw [Std.HashMap.getElem?_insert] at hr
        split at hr
        case isTrue he =>
          exact Or.inl ⟨(eq_of_beq he).symm, (Option.some.inj hr).symm⟩
        case isFalse =>
          exact Or.inr hr
      refine ⟨⟨?_, ?_⟩, by simp, ?_⟩
      · intro r n hr
        rw [hsize]
        rcases hget hr with ⟨_, rfl⟩ | hr
        · exact Nat.lt_succ_self _
        · exact Nat.lt_succ_of_lt (h.lt_size hr)
      · intro r s n hr hs
        rcases hget hr with ⟨hr, hn⟩ | hr'
        · rcases hget hs with ⟨hs, _⟩ | hs'
          · exact hr.trans hs.symm
          · exact absurd (hn ▸ h.lt_size hs') (Nat.lt_irrefl _)
        · rcases hget hs with ⟨_, hn⟩ | hs'
          · exact absurd (hn ▸ h.lt_size hr') (Nat.lt_irrefl _)
          · exact h.injective hr' hs'
      · intro r n hr
        have hne : root ≠ r := by
          rintro rfl
          rw [hroot] at hr
          cases hr
        simpa [Std.HashMap.getElem?_insert, hne] using hr

/-- What one node adds to a model. -/
def enterNode (number : Nat) (model : Model) : Node → Model
  | .const c => model.insert c.name (elementName c.sort number)
  | .app .. => model

theorem modelFrom_cons (id : Nat) (classes : UnionFind) (numbering : Numbering) (model : Model)
    (node : Node) (rest : List Node) :
    modelFrom id classes numbering model (node :: rest) =
      let number := numberOf numbering (classes.rootOf id)
      modelFrom (id + 1) (classes.find id).2 number.2 (enterNode number.1 model node) rest := by
  have hroot : (classes.find id).1 = classes.rootOf id := rfl
  simp only [modelFrom, numberOf, hroot]
  cases numbering[classes.rootOf id]? <;> cases node <;> rfl

/-- A name that no later constant has keeps its entry. -/
theorem get?_modelFrom {name : String} {nodes : List Node}
    (h : ∀ c : Constant, Node.const c ∈ nodes → c.name ≠ name) (id : Nat) (classes : UnionFind)
    (numbering : Numbering) (model : Model) :
    (modelFrom id classes numbering model nodes).get? name = model.get? name := by
  induction nodes generalizing id classes numbering model with
  | nil =>
      rfl
  | cons node rest ih =>
      have hrest : ∀ c : Constant, Node.const c ∈ rest → c.name ≠ name :=
        fun c hc => h c (List.mem_cons_of_mem node hc)
      rw [modelFrom_cons, ih hrest]
      cases node with
      | const c =>
          rw [enterNode, Model.get?_insert, if_neg (h c List.mem_cons_self)]
      | app f args =>
          rfl

/-- Each constant is entered with the number of its class. -/
theorem modelFrom_spec {nodes : List Node} (id : Nat) {classes : UnionFind} (hc : classes.Ranked)
    {numbering : Numbering} (hn : Numbered numbering) (model : Model)
    (hnames : nodes.Pairwise fun m n => ∀ c d, m = .const c → n = .const d → c.name ≠ d.name) :
    ∃ final : Numbering, Numbered final ∧
      (∀ {r n : Nat}, numbering[r]? = some n → final[r]? = some n) ∧
      ∀ (k : Nat) (c : Constant), nodes[k]? = some (.const c) →
        ∃ n, final[classes.rootOf (id + k)]? = some n ∧
          (modelFrom id classes numbering model nodes).get? c.name =
            some (elementName c.sort n) := by
  induction nodes generalizing id classes numbering model with
  | nil =>
      refine ⟨numbering, hn, fun h => h, ?_⟩
      intro k c hk
      simp at hk
  | cons node rest ih =>
      rcases List.pairwise_cons.1 hnames with ⟨hhead, htail⟩
      rcases numberOf_spec hn (classes.rootOf id) with ⟨hn', hid, hkeep⟩
      rcases ih (id + 1) (hc.find id) hn'
        (enterNode (numberOf numbering (classes.rootOf id)).1 model node) htail with
        ⟨final, hfinal, hextends, hentries⟩
      refine ⟨final, hfinal, fun h => hextends (hkeep h), ?_⟩
      intro k c hk
      rw [modelFrom_cons]
      cases k with
      | zero =>
          -- the first constant keeps its entry, since no later one has its name
          cases Option.some.inj hk
          refine ⟨_, hextends hid, ?_⟩
          have hlater : ∀ d : Constant, Node.const d ∈ rest → d.name ≠ c.name :=
            fun d hd he => hhead _ hd c d rfl rfl he.symm
          rw [get?_modelFrom hlater, enterNode, Model.get?_insert, if_pos rfl]
      | succ k =>
          rcases hentries k c hk with ⟨n, hroot, hentry⟩
          refine ⟨n, ?_, hentry⟩
          rw [UnionFind.rootOf_find hc] at hroot
          rwa [show id + (k + 1) = id + 1 + k by omega]

/-! ## Closed graphs -/

/-- Nodes are numbered once, each is a well-sorted term, and the classes are a congruence. -/
structure TermGraph.Closed (sig : Signature) (g : TermGraph) : Prop where
  ids_iff : ∀ (node : Node) (id : Nat), g.ids[node]? = some id ↔ g.nodes[id]? = some node
  covered : TermGraph.Covered sig g.nodes
  ranked : g.classes.Ranked
  congruence : IsCongruence g.nodes fun i j => g.classes.rootOf i = g.classes.rootOf j

namespace TermGraph

variable {sig : Signature} {g : TermGraph}

theorem sortOf_of_node {nodes : Array Node} (h : Covered sig nodes) {c : Constant} {i : Nat}
    (hi : nodes[i]? = some (.const c)) : sig.sortOf c.name = c.sort := by
  rcases h i (Array.getElem?_eq_some_iff.1 hi).1 with ⟨t, ht, hrep⟩
  cases t with
  | const d =>
      cases hi.symm.trans hrep
      exact ht
  | app f args =>
      rcases hrep with ⟨ids, hnode, _⟩
      cases hi.symm.trans hnode

/-- No two nodes are constants of one name. -/
theorem Closed.names_differ (h : g.Closed sig) : g.nodes.toList.Pairwise fun m n =>
    ∀ c d : Constant, m = .const c → n = .const d → c.name ≠ d.name := by
  rw [List.pairwise_iff_getElem]
  intro i j hi hj hij c d hc hd hname
  have hci : g.nodes[i]? = some (.const c) := by
    rw [← Array.getElem?_toList, List.getElem?_eq_getElem hi, hc]
  have hdj : g.nodes[j]? = some (.const d) := by
    rw [← Array.getElem?_toList, List.getElem?_eq_getElem hj, hd]
  have hsort : c.sort = d.sort := by
    rw [← sortOf_of_node h.covered hci, ← sortOf_of_node h.covered hdj, hname]
  have hcd : c = d := by
    cases c
    cases d
    cases hname
    cases hsort
    rfl
  exact absurd (TermGraph.id_unique h.ids_iff hci (hcd ▸ hdj)) (Nat.ne_of_lt hij)

/-- A model gives a constant the name of its class. -/
theorem Closed.modelOf_spec (h : g.Closed sig) : ∃ final : Numbering, Numbered final ∧
    ∀ {c : Constant} {id : Nat}, g.nodes[id]? = some (.const c) →
      ∃ n, final[g.classes.rootOf id]? = some n ∧
        (modelOf g).get? c.name = some (elementName c.sort n) := by
  rcases modelFrom_spec 0 h.ranked Numbered.empty .empty h.names_differ with
    ⟨final, hfinal, _, hentries⟩
  refine ⟨final, hfinal, ?_⟩
  intro c id hid
  rcases hentries id c (by simpa using hid) with ⟨n, hn, hentry⟩
  exact ⟨n, by simpa using hn, hentry⟩

/-- Entries for constants of one sort are equal exactly inside a class. -/
theorem Closed.get?_modelOf_eq_iff (h : g.Closed sig) {c d : Constant} {i j : Nat}
    (hc : g.nodes[i]? = some (.const c)) (hd : g.nodes[j]? = some (.const d))
    (hsort : c.sort = d.sort) : (modelOf g).get? c.name = (modelOf g).get? d.name ↔
      g.classes.rootOf i = g.classes.rootOf j := by
  rcases h.modelOf_spec with ⟨final, hfinal, hentries⟩
  rcases hentries hc with ⟨m, hm, hcm⟩
  rcases hentries hd with ⟨n, hn, hdn⟩
  rw [hcm, hdn, hsort]
  constructor
  · intro he
    have hmn := elementName_injective (Option.some.inj he)
    subst hmn
    exact hfinal.injective hm hn
  · intro he
    rw [he, hn] at hm
    cases hm
    rfl

/-! ## The interpretation by classes -/

open Classical in
/-- The class of an application of `f` to members of the given classes. -/
noncomputable def classOfApp (g : TermGraph) (f : FunctionSymbol) (roots : List Nat) : Nat :=
  if h : ∃ (id : Nat) (args : List Nat), g.nodes[id]? = some (.app f.name args) ∧
      args.map g.classes.rootOf = roots then
    g.classes.rootOf h.choose
  else 0

/-- The sorts of a function make no difference. -/
theorem classOfApp_congr (g : TermGraph) {f f' : FunctionSymbol} (h : f.name = f'.name) :
    g.classOfApp f = g.classOfApp f' := by
  cases f
  cases f'
  cases h
  rfl

def classOfConst (g : TermGraph) (c : Constant) : Nat :=
  match g.ids[Node.const c]? with
  | some id => g.classes.rootOf id
  | none => 0

/-- Elements are the roots of classes. -/
noncomputable abbrev classInterpretation (g : TermGraph) : Interpretation.{0} :=
  .uniform 0 g.classOfConst g.classOfApp

theorem classOfApp_eq
    (hcong : IsCongruence g.nodes fun i j => g.classes.rootOf i = g.classes.rootOf j) {id : Nat}
    {f : FunctionSymbol} {args : List Nat} (hid : g.nodes[id]? = some (.app f.name args)) :
    g.classOfApp f (args.map g.classes.rootOf) = g.classes.rootOf id := by
  -- another application may have been chosen, but it lies in the same class
  have hex : ∃ (id' : Nat) (args' : List Nat), g.nodes[id']? = some (.app f.name args') ∧
      args'.map g.classes.rootOf = args.map g.classes.rootOf :=
    ⟨id, args, hid, rfl⟩
  rcases hex.choose_spec with ⟨args', hnode, hroots⟩
  rw [classOfApp, dif_pos hex]
  exact hcong.app hnode hid (map_eq_map_iff_forall₂.1 hroots)

mutual

/-- The value of a term is the class of its node. -/
theorem plainValue_eq_rootOf
    (hids : ∀ (node : Node) (id : Nat), g.ids[node]? = some id ↔ g.nodes[id]? = some node)
    (hcong : IsCongruence g.nodes fun i j => g.classes.rootOf i = g.classes.rootOf j) :
    ∀ {t : Term} {id : Nat}, Represents g.nodes t id →
      Interpretation.plainValue g.classOfConst g.classOfApp t = g.classes.rootOf id
  | .const c, id, hrep => by
      have hid : g.ids[Node.const c]? = some id := (hids _ _).2 hrep
      simp [Interpretation.plainValue, classOfConst, hid]
  | .app f args, id, ⟨ids, hnode, hargs⟩ => by
      rw [Interpretation.plainValue, plainValues_eq_map_rootOf hids hcong hargs,
        classOfApp_eq hcong hnode]

theorem plainValues_eq_map_rootOf
    (hids : ∀ (node : Node) (id : Nat), g.ids[node]? = some id ↔ g.nodes[id]? = some node)
    (hcong : IsCongruence g.nodes fun i j => g.classes.rootOf i = g.classes.rootOf j) :
    ∀ {ts : List Term} {ids : List Nat}, AllRepresent g.nodes ts ids →
      Interpretation.plainValues g.classOfConst g.classOfApp ts = ids.map g.classes.rootOf
  | [], _, hrep => by
      cases hrep
      rfl
  | t :: rest, _, ⟨id, more, hmore, ht, hrest⟩ => by
      subst hmore
      rw [Interpretation.plainValues, plainValue_eq_rootOf hids hcong ht,
        plainValues_eq_map_rootOf hids hcong hrest, List.map_cons]

end

theorem Closed.value_eq (h : g.Closed sig) {t : Term} {id : Nat} (ht : t.WellSorted sig)
    (hrep : Represents g.nodes t id) :
    g.classInterpretation.value t = ⟨t.sort, g.classes.rootOf id⟩ := by
  rw [Interpretation.value_uniform ht, plainValue_eq_rootOf h.ids_iff h.congruence hrep]

/-! ## Nodes under any interpretation -/

section NodeValue

variable {I : Interpretation.{u}} {nodes : Array Node}

open Classical in
/-- The value of the term that a node stands for. -/
noncomputable def nodeValue (I : Interpretation.{u}) (sig : Signature) (nodes : Array Node)
    (id : Nat) : I.Value :=
  if h : ∃ t : Term, t.WellSorted sig ∧ Represents nodes t id then I.value h.choose
  else ⟨⟨""⟩, I.element ⟨""⟩⟩

theorem nodeValue_eq {t : Term} {id : Nat} (ht : t.WellSorted sig)
    (hrep : Represents nodes t id) : nodeValue I sig nodes id = I.value t := by
  -- the node stands for one well-sorted term only, so that one was chosen
  have hex : ∃ t : Term, t.WellSorted sig ∧ Represents nodes t id := ⟨t, ht, hrep⟩
  rcases hex.choose_spec with ⟨ht', hrep'⟩
  rw [nodeValue, dif_pos hex, Represents.unique ht' ht hrep' hrep]

theorem values_eq_map_nodeValue {ts : List Term} {ids : List Nat}
    (hts : Term.AllWellSorted sig ts) (hrep : AllRepresent nodes ts ids) :
    I.values ts = ids.map (nodeValue I sig nodes) := by
  induction ts generalizing ids with
  | nil =>
      cases hrep
      rfl
  | cons t rest ih =>
      rcases hrep with ⟨id, more, rfl, ht, hrest⟩
      calc
        I.values (t :: rest)
            = I.value t :: I.values rest := rfl
        _ = nodeValue I sig nodes id :: more.map (nodeValue I sig nodes) := by
              rw [nodeValue_eq hts.1 ht, ih hts.2 hrest]

/-- Applications are applications of one symbol, since the signature has one for each name. -/
theorem nodeValue_app (hcov : Covered sig nodes) {id : Nat} {f : String} {args : List Nat}
    (hid : nodes[id]? = some (.app f args)) :
    nodeValue I sig nodes id = I.apply (sig.symbol f) (args.map (nodeValue I sig nodes)) := by
  rcases hcov id (Array.getElem?_eq_some_iff.1 hid).1 with ⟨t, ht, hrep⟩
  rw [nodeValue_eq ht hrep]
  cases t with
  | const c =>
      cases hid.symm.trans hrep
  | app F ts =>
      rcases hrep with ⟨ids, hnode, hts⟩
      cases hid.symm.trans hnode
      rw [Interpretation.value, values_eq_map_nodeValue ht.2.2 hts, ht.1]

theorem isCongruence_nodeValue (hcov : Covered sig nodes) : IsCongruence nodes fun i j =>
    nodeValue I sig nodes i = nodeValue I sig nodes j where
  equivalence := ⟨fun _ => rfl, fun h => h.symm, fun h h' => h.trans h'⟩
  app := by
    intro i j f xs ys hi hj hxy
    have hmap : xs.map (nodeValue I sig nodes) = ys.map (nodeValue I sig nodes) :=
      map_eq_map_iff_forall₂.2 hxy
    rw [nodeValue_app hcov hi, nodeValue_app hcov hj, hmap]

end NodeValue

end TermGraph

end Congruence

end StraightLine
