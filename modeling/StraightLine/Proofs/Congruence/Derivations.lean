import StraightLine.Proofs.Congruence.ClassModel
import StraightLine.Proofs.Congruence.Saturation

/-!
# Derivations — two terms end in one class exactly if their equation is derivable

Equations are derived by reflexivity, symmetry, transitivity and congruence from those of the joined
nodes. What is derivable holds in every interpretation that has these equations, so it holds of the
classes. Conversely the nodes of derivably equal terms are a congruence, and the classes are the
least one.

A node keeps the name of a function and not its sorts. Congruence therefore needs equal names only;
for well-sorted terms that is the same function.

* `Derives`, `Derives.plainValue_eq` — derivations, and their soundness;
* `Named` — families of terms in which functions of one name are the same;
* `isCongruence_derivable` — the nodes of derivably equal terms;
* `TermGraph.rootOf_eq_iff_derives` — classes and derivations;
* `TermGraph.ClosesPairs`, `TermGraph.close_interned` — the closure of a graph of interned terms.
-/

namespace StraightLine

open Smt

namespace Congruence

/-! ## Derivations -/

/-- What follows from equations, if congruence applies to functions that are the same. -/
inductive Derives (Same : FunctionSymbol → FunctionSymbol → Prop) (E : Term → Term → Prop) :
    Term → Term → Prop where
  | given {s t : Term} : E s t → Derives Same E s t
  | refl (t : Term) : Derives Same E t t
  | symm {s t : Term} : Derives Same E s t → Derives Same E t s
  | trans {s t u : Term} : Derives Same E s t → Derives Same E t u → Derives Same E s u
  | congr {f g : FunctionSymbol} {ss ts : List Term} (same : Same f g)
      (length : ss.length = ts.length) (args : ∀ {s t}, (s, t) ∈ ss.zip ts → Derives Same E s t) :
      Derives Same E (.app f ss) (.app g ts)

/-- Functions of one name. -/
def SameName (f g : FunctionSymbol) : Prop :=
  f.name = g.name

section Derivations

variable {Same : FunctionSymbol → FunctionSymbol → Prop} {E : Term → Term → Prop}
  {P : Term → Prop} {nodes : Array Node}

theorem Derives.app {f g : FunctionSymbol} {ss ts : List Term} (hsame : Same f g)
    (hargs : List.Forall₂ (Derives Same E) ss ts) : Derives Same E (.app f ss) (.app g ts) := by
  rcases List.forall₂_iff_zip.1 hargs with ⟨hlength, hzip⟩
  exact .congr hsame hlength hzip

/-- Derivable equations hold wherever the given ones do. -/
theorem Derives.plainValue_eq {α : Type*} {const : Constant → α}
    {function : FunctionSymbol → List α → α}
    (hsame : ∀ f g, Same f g → function f = function g)
    (hE : ∀ s t, E s t → Interpretation.plainValue const function s =
      Interpretation.plainValue const function t) {s t : Term} (h : Derives Same E s t) :
    Interpretation.plainValue const function s = Interpretation.plainValue const function t := by
  induction h with
  | given h =>
      exact hE _ _ h
  | refl t =>
      rfl
  | symm _ ih =>
      exact ih.symm
  | trans _ _ ih ih' =>
      exact ih.trans ih'
  | @congr f g ss ts same length _ ih =>
      have hargs : Interpretation.plainValues const function ss =
          Interpretation.plainValues const function ts := by
        rw [Interpretation.plainValues_eq_map, Interpretation.plainValues_eq_map]
        exact map_eq_map_iff_forall₂.2 (List.forall₂_iff_zip.2 ⟨length, ih⟩)
      rw [Interpretation.plainValue, Interpretation.plainValue, hsame f g same, hargs]

/-! ## Families of terms -/

/-- Terms with their arguments, in which functions of one name are the same. -/
structure Named (Same : FunctionSymbol → FunctionSymbol → Prop) (P : Term → Prop) : Prop where
  args : ∀ {f ts}, P (.app f ts) → ∀ t ∈ ts, P t
  same : ∀ {f g ss ts}, P (.app f ss) → P (.app g ts) → f.name = g.name → Same f g

theorem named_true : Named SameName fun _ => True where
  args := fun _ _ _ => trivial
  same := fun _ _ h => h

theorem named_wellSorted (sig : Signature) : Named Eq fun t => t.WellSorted sig where
  args := fun h => Term.allWellSorted_iff.1 h.2.2
  same := fun hf hg h => hf.1.symm.trans (h ▸ hg.1)

mutual

/-- Terms that are alike differ only in functions that are the same. -/
theorem Alike.derives (hP : Named Same P) : ∀ {s t : Term}, P s → P t → Alike s t →
    Derives Same E s t
  | .const _, .const _, _, _, h => h ▸ .refl _
  | .app _ _, .app _ _, hs, ht, ⟨hname, hargs⟩ =>
      .app (hP.same hs ht hname) (AllAlike.derives hP (hP.args hs) (hP.args ht) hargs)

theorem AllAlike.derives (hP : Named Same P) : ∀ {ss ts : List Term}, (∀ s ∈ ss, P s) →
    (∀ t ∈ ts, P t) → AllAlike ss ts → List.Forall₂ (Derives Same E) ss ts
  | [], [], _, _, _ => .nil
  | s :: _, t :: _, hs, ht, ⟨h, hrest⟩ =>
      .cons (Alike.derives hP (hs s List.mem_cons_self) (ht t List.mem_cons_self) h)
        (AllAlike.derives hP (fun u hu => hs u (List.mem_cons_of_mem s hu))
          (fun u hu => ht u (List.mem_cons_of_mem t hu)) hrest)

end

theorem Represents.derives (hP : Named Same P) {s t : Term} {id : Nat} (hs : P s) (ht : P t)
    (h : Represents nodes s id) (h' : Represents nodes t id) : Derives Same E s t :=
  (h.alike h').derives hP hs ht

/-! ## The nodes of derivably equal terms -/

/-- Nodes with terms of the family that are derivably equal. -/
def Derivable (Same : FunctionSymbol → FunctionSymbol → Prop) (E : Term → Term → Prop)
    (P : Term → Prop) (nodes : Array Node) (i j : Nat) : Prop :=
  i = j ∨ ∃ s t, P s ∧ P t ∧ Represents nodes s i ∧ Represents nodes t j ∧ Derives Same E s t

/-- Whichever terms of the family stand for the nodes. -/
theorem Derivable.derives (hP : Named Same P) {i j : Nat} (h : Derivable Same E P nodes i j)
    {s t : Term} (hs : P s) (ht : P t) (hsi : Represents nodes s i) (htj : Represents nodes t j) :
    Derives Same E s t := by
  rcases h with rfl | ⟨s', t', hs', ht', hsi', htj', hst⟩
  · exact hsi.derives hP hs ht htj
  · have hleft : Derives Same E s s' := hsi.derives hP hs hs' hsi'
    have hright : Derives Same E t' t := htj'.derives hP ht' ht htj
    exact hleft.trans (hst.trans hright)

theorem Derivable.forall₂ (hP : Named Same P) {xs ys : List Nat}
    (h : List.Forall₂ (Derivable Same E P nodes) xs ys) {ss ts : List Term}
    (hs : ∀ s ∈ ss, P s) (ht : ∀ t ∈ ts, P t) (hss : AllRepresent nodes ss xs)
    (hts : AllRepresent nodes ts ys) : List.Forall₂ (Derives Same E) ss ts := by
  induction h generalizing ss ts with
  | nil =>
      exact (AllRepresent.alike hss hts).derives hP hs ht
  | @cons x y xs ys hxy _ ih =>
      cases ss with
      | nil =>
          cases hss
      | cons s ss =>
          cases ts with
          | nil =>
              cases hts
          | cons t ts =>
              rcases hss with ⟨_, _, ⟨⟩, hsx, hss⟩
              rcases hts with ⟨_, _, ⟨⟩, hty, hts⟩
              rw [List.forall_mem_cons] at hs ht
              exact .cons (hxy.derives hP hs.1 ht.1 hsx hty) (ih hs.2 ht.2 hss hts)

/-- If every node has a term of the family, derivably equal nodes are a congruence. -/
theorem isCongruence_derivable (hP : Named Same P)
    (hcov : ∀ id < nodes.size, ∃ t, P t ∧ Represents nodes t id) :
    IsCongruence nodes (Derivable Same E P nodes) where
  equivalence := by
    refine ⟨fun _ => Or.inl rfl, ?_, ?_⟩
    · rintro i j (rfl | ⟨s, t, hs, ht, hsi, htj, hst⟩)
      · exact Or.inl rfl
      · exact Or.inr ⟨t, s, ht, hs, htj, hsi, hst.symm⟩
    · rintro i j k (rfl | ⟨s, t, hs, ht, hsi, htj, hst⟩) hjk
      · exact hjk
      · rcases hjk with rfl | ⟨t', u, ht', hu, htj', huk, htu⟩
        · exact Or.inr ⟨s, t, hs, ht, hsi, htj, hst⟩
        · have hmiddle : Derives Same E t t' := htj.derives hP ht ht' htj'
          exact Or.inr ⟨s, u, hs, hu, hsi, huk, hst.trans (hmiddle.trans htu)⟩
  app := by
    intro i j f xs ys hi hj hxy
    rcases hcov i (Array.getElem?_eq_some_iff.1 hi).1 with ⟨s, hs, hsi⟩
    rcases hcov j (Array.getElem?_eq_some_iff.1 hj).1 with ⟨t, ht, htj⟩
    -- both terms are applications, as their nodes are
    cases s with
    | const c =>
        cases hi.symm.trans hsi
    | app F ss =>
        cases t with
        | const c =>
            cases hj.symm.trans htj
        | app G ts =>
            have hsi' := hsi
            have htj' := htj
            rcases hsi with ⟨xs', hnode, hss⟩
            rcases htj with ⟨ys', hnode', hts⟩
            cases hi.symm.trans hnode
            have hname : F.name = G.name ∧ ys = ys' := by
              simpa using hj.symm.trans hnode'
            rcases hname with ⟨hname, rfl⟩
            have hargs := Derivable.forall₂ hP hxy (hP.args hs) (hP.args ht) hss hts
            exact Or.inr ⟨_, _, hs, ht, hsi', htj', .app (hP.same hs ht hname) hargs⟩

end Derivations

/-! ## Classes and derivations -/

namespace TermGraph

/-- Every node is a term, since its arguments are numbered before it. -/
theorem Shared.exists_term {g : TermGraph} (hg : g.Shared) :
    ∀ id < g.nodes.size, ∃ t, Represents g.nodes t id := by
  intro id
  induction id using Nat.strong_induction_on with
  | _ id ih =>
      intro hid
      cases hnode : g.nodes[id] with
      | const c =>
          refine ⟨.const c, ?_⟩
          rw [Represents, Array.getElem?_eq_getElem hid, hnode]
      | app f args =>
          have hsome : g.nodes[id]? = some (.app f args) := by
            rw [Array.getElem?_eq_getElem hid, hnode]
          have hterms : ∀ xs : List Nat, (∀ x ∈ xs, x < id) → ∃ ts, AllRepresent g.nodes ts xs := by
            intro xs hxs
            induction xs with
            | nil =>
                exact ⟨[], rfl⟩
            | cons x rest ihrest =>
                rw [List.forall_mem_cons] at hxs
                rcases ih x hxs.1 (Nat.lt_trans hxs.1 hid) with ⟨t, ht⟩
                rcases ihrest hxs.2 with ⟨ts, hts⟩
                exact ⟨t :: ts, x, rest, rfl, ht, hts⟩
          rcases hterms args (hg.args_lt hsome) with ⟨ts, hts⟩
          exact ⟨.app ⟨f, [], ⟨""⟩⟩ ts, args, hsome, hts⟩

/-- Pairs of nodes are the two sides of some equations. -/
theorem Shared.exists_equations {g : TermGraph} (hg : g.Shared) {pairs : List (Nat × Nat)}
    (hpairs : ∀ p ∈ pairs, p.1 < g.nodes.size ∧ p.2 < g.nodes.size) :
    ∃ equations, PairsRepresent g.nodes equations pairs := by
  induction pairs with
  | nil =>
      exact ⟨[], .nil⟩
  | cons p rest ih =>
      rw [List.forall_mem_cons] at hpairs
      rcases hg.exists_term p.1 hpairs.1.1 with ⟨s, hs⟩
      rcases hg.exists_term p.2 hpairs.1.2 with ⟨t, ht⟩
      rcases ih hpairs.2 with ⟨equations, hrest⟩
      exact ⟨(s, t) :: equations, .cons ⟨hs, ht⟩ hrest⟩

section Interned

variable {Same : FunctionSymbol → FunctionSymbol → Prop} {P : Term → Prop} {g : TermGraph}
  {equations : List (Term × Term)} {pairs : List (Nat × Nat)} {v : UnionFind}

/-- A derivable equation lies inside a class, because the classes are a model of it. -/
theorem rootOf_eq_of_derives (hg : g.Shared) (hsame : ∀ f f', Same f f' → f.name = f'.name)
    (heqs : PairsRepresent g.nodes equations pairs)
    (hv : IsCongruence g.nodes fun i j => v.rootOf i = v.rootOf j)
    (hpairs : ∀ p ∈ pairs, v.rootOf p.1 = v.rootOf p.2) {s t : Term} {i j : Nat}
    (hs : Represents g.nodes s i) (ht : Represents g.nodes t j)
    (h : Derives Same (fun s t => (s, t) ∈ equations) s t) : v.rootOf i = v.rootOf j := by
  let closed : TermGraph := { g with classes := v }
  have hvalue : ∀ {u : Term} {id : Nat}, Represents g.nodes u id →
      Interpretation.plainValue closed.classOfConst closed.classOfApp u = v.rootOf id :=
    fun hu => plainValue_eq_rootOf (g := closed) hg.ids_iff hv hu
  rw [← hvalue hs, ← hvalue ht]
  refine h.plainValue_eq ?_ ?_
  · exact fun f f' hf => classOfApp_congr closed (hsame f f' hf)
  · intro u w huw
    rcases heqs.exists_ids _ huw with ⟨p, hp, hu, hw⟩
    rw [hvalue hu, hvalue hw, hpairs p hp]

/-- The terms of a class are derivably equal, because derivably equal nodes are a congruence. -/
theorem derives_of_rootOf_eq (hg : g.Shared) (hP : Named Same P)
    (hcov : ∀ id < g.nodes.size, ∃ t, P t ∧ Represents g.nodes t id)
    (heqs : PairsRepresent g.nodes equations pairs) (hsides : ∀ e ∈ equations, P e.1 ∧ P e.2)
    (hv : Closes g.nodes (g.unionPairs pairs).classes v) {s t : Term} {i j : Nat} (hs : P s)
    (ht : P t) (hsi : Represents g.nodes s i) (htj : Represents g.nodes t j)
    (h : v.rootOf i = v.rootOf j) : Derives Same (fun s t => (s, t) ∈ equations) s t := by
  have hcong := isCongruence_derivable (E := fun s t => (s, t) ∈ equations) hP hcov
  have hrel : ∀ p ∈ pairs,
      Derivable Same (fun s t => (s, t) ∈ equations) P g.nodes p.1 p.2 := by
    intro p hp
    rcases heqs.exists_terms p hp with ⟨e, he, hleft, hright⟩
    rcases hsides e he with ⟨hl, hr⟩
    exact Or.inr ⟨e.1, e.2, hl, hr, hleft, hright, .given he⟩
  -- what was joined first is below this congruence, and so is what closing joins
  rcases hg.unionPairs hcong.equivalence heqs.lt_size hrel with ⟨_, _, hwithin, _⟩
  exact (hv.least _ hcong hwithin i j h).derives hP hs ht hsi htj

theorem rootOf_eq_iff_derives (hg : g.Shared) (hsame : ∀ f f', Same f f' → f.name = f'.name)
    (hP : Named Same P) (hcov : ∀ id < g.nodes.size, ∃ t, P t ∧ Represents g.nodes t id)
    (heqs : PairsRepresent g.nodes equations pairs) (hsides : ∀ e ∈ equations, P e.1 ∧ P e.2)
    (hv : Closes g.nodes (g.unionPairs pairs).classes v) {s t : Term} {i j : Nat} (hs : P s)
    (ht : P t) (hsi : Represents g.nodes s i) (htj : Represents g.nodes t j) :
    v.rootOf i = v.rootOf j ↔ Derives Same (fun s t => (s, t) ∈ equations) s t := by
  have htrue := (isCongruence_true g.nodes).equivalence
  rcases hg.unionPairs htrue heqs.lt_size (fun _ _ => trivial) with ⟨_, _, _, hjoined⟩
  constructor
  · exact derives_of_rootOf_eq hg hP hcov heqs hsides hv hs ht hsi htj
  · exact rootOf_eq_of_derives hg hsame heqs hv.congruence
      (fun p hp => hv.coarser _ _ (hjoined p hp)) hsi htj

end Interned

/-! ## The closure of a graph of interned terms -/

/-- What the loop does after pairs of nodes were joined: it ends in any order, it stops only when
nothing is pending, and its classes are those of derivably equal terms and those of a naive
closure. -/
structure ClosesPairs (g : TermGraph) (pairs : List (Nat × Nat)) : Prop where
  ends : Acc (fun after before => Closing.Turn g.nodes before after) (g.unionPairs pairs).start
  continues : ∀ id rest state, ∃ after, Closing.Turn g.nodes (id :: rest, state) after
  run : ∃ out, Relation.ReflTransGen (Closing.Turn g.nodes) (g.unionPairs pairs).start ([], out) ∧
    out.classes = (g.unionPairs pairs).close.classes
  order : ∀ out, Relation.ReflTransGen (Closing.Turn g.nodes) (g.unionPairs pairs).start ([], out) →
    ∀ i j, out.classes.rootOf i = out.classes.rootOf j ↔
      (g.unionPairs pairs).close.classes.rootOf i = (g.unionPairs pairs).close.classes.rootOf j
  equations : ∃ equations, PairsRepresent g.nodes equations pairs
  derives : ∀ equations, PairsRepresent g.nodes equations pairs →
    ∀ s t i j, Represents g.nodes s i → Represents g.nodes t j →
      ((g.unionPairs pairs).close.classes.rootOf i = (g.unionPairs pairs).close.classes.rootOf j ↔
        Derives SameName (fun s t => (s, t) ∈ equations) s t)
  saturates : ∀ i j,
    (g.unionPairs pairs).close.classes.rootOf i = (g.unionPairs pairs).close.classes.rootOf j ↔
      (saturate g.nodes (g.unionPairs pairs).classes).rootOf i =
        (saturate g.nodes (g.unionPairs pairs).classes).rootOf j

theorem Shared.closesPairs {g : TermGraph} (hg : g.Shared) {pairs : List (Nat × Nat)}
    (hpairs : ∀ p ∈ pairs, p.1 < g.nodes.size ∧ p.2 < g.nodes.size) : g.ClosesPairs pairs := by
  have htrue := isCongruence_true g.nodes
  rcases hg.unionPairs htrue.equivalence hpairs (fun _ _ => trivial) with
    ⟨hranked, hsize, hwithin, _⟩
  have hstart := (invariant_start (g := g.unionPairs pairs) hranked hsize hwithin).1
  have hclose := closes_close (g := g.unionPairs pairs) hranked hsize
  refine ⟨Closing.acc_turn htrue hstart, Closing.exists_turn g.nodes, turns_close hranked hsize, ?_,
    hg.exists_equations hpairs, ?_, ?_⟩
  · intro out hout
    exact (closes_of_turns (g := g.unionPairs pairs) hranked hsize hout).rootOf_eq_iff hclose
  · intro equations heqs s t i j hs ht
    have hcov : ∀ id < g.nodes.size, ∃ t, True ∧ Represents g.nodes t id := by
      simpa using hg.exists_term
    exact rootOf_eq_iff_derives hg (fun _ _ h => h) named_true hcov heqs
      (fun _ _ => ⟨trivial, trivial⟩) hclose trivial trivial hs ht
  · exact hclose.rootOf_eq_iff (closes_saturate hranked hsize)

/-- Interned terms are nodes. After pairs of nodes were joined, closing ends with the least
congruence: two interned terms are in one class exactly if their equation is derivable from the
equations of the pairs. For well-sorted terms congruence is that of each function. -/
theorem close_interned (ts : List Term) (pairs : List (Nat × Nat))
    (hpairs : ∀ p ∈ pairs, p.1 < (TermGraph.empty.internAll ts).2.nodes.size ∧
      p.2 < (TermGraph.empty.internAll ts).2.nodes.size) :
    let g := (TermGraph.empty.internAll ts).2
    AllRepresent g.nodes ts (TermGraph.empty.internAll ts).1 ∧ g.ClosesPairs pairs ∧
    ∀ sig, Term.AllWellSorted sig ts → ∀ equations, PairsRepresent g.nodes equations pairs →
      (∀ e ∈ equations, e.1.WellSorted sig ∧ e.2.WellSorted sig) →
        ∀ s t i j, s.WellSorted sig → t.WellSorted sig → Represents g.nodes s i →
          Represents g.nodes t j →
            ((g.unionPairs pairs).close.classes.rootOf i =
                (g.unionPairs pairs).close.classes.rootOf j ↔
              Derives Eq (fun s t => (s, t) ∈ equations) s t) := by
  intro g
  rcases @internAll_shared ts _ Shared.empty with ⟨hg, _, hreps⟩
  refine ⟨hreps, hg.closesPairs hpairs, ?_⟩
  intro sig hts equations heqs hsides s t i j hs ht hsi htj
  have hcov : Covered sig g.nodes := by
    refine covered_internAll Shared.empty hts ?_
    intro id hid
    exact absurd hid (Nat.not_lt_zero id)
  have htrue := (isCongruence_true g.nodes).equivalence
  rcases hg.unionPairs htrue hpairs (fun _ _ => trivial) with ⟨hranked, hsize, _, _⟩
  have hclose := closes_close (g := g.unionPairs pairs) hranked hsize
  exact rootOf_eq_iff_derives hg (fun _ _ h => congrArg _ h) (named_wellSorted sig) hcov heqs hsides
    hclose hs ht hsi htj

/-- With `a = b` the squares of `a` and `b` are in one class, and `a` is not in it. -/
theorem close_interned_squares :
    let sort : UninterpretedSort := ⟨"S"⟩
    let f : FunctionSymbol := ⟨"f", [sort, sort], sort⟩
    let a : Term := .const ⟨"a", sort⟩
    let b : Term := .const ⟨"b", sort⟩
    let g := (TermGraph.empty.internAll [a, .app f [a, a], b, .app f [b, b]]).2
    let closed := ((g.unionPairs [(0, 2)]).close).classes
    (∀ p ∈ [(0, 2)], p.1 < g.nodes.size ∧ p.2 < g.nodes.size) ∧
      closed.rootOf 1 = closed.rootOf 3 ∧ closed.rootOf 0 ≠ closed.rootOf 1 := by
  intro sort f a b g closed
  have hnodes : g.nodes = #[.const ⟨"a", sort⟩, .app "f" [0, 0], .const ⟨"b", sort⟩,
      .app "f" [2, 2]] := by
    simp [g, a, b, f, sort, TermGraph.internAll, TermGraph.intern, TermGraph.add, TermGraph.empty,
      UnionFind.empty, UnionFind.push]
  have hpairs : ∀ p ∈ [(0, 2)], p.1 < g.nodes.size ∧ p.2 < g.nodes.size := by
    simp [hnodes]
  have hclosed := (close_interned [a, .app f [a, a], b, .app f [b, b]] [(0, 2)] hpairs).2.1
  have ha : Represents g.nodes a 0 := by
    simp [a, Represents, hnodes]
  have hb : Represents g.nodes b 2 := by
    simp [b, Represents, hnodes]
  have hfa : Represents g.nodes (.app f [a, a]) 1 :=
    ⟨[0, 0], by simp [hnodes, f], 0, [0], rfl, ha, 0, [], rfl, ha, rfl⟩
  have hfb : Represents g.nodes (.app f [b, b]) 3 :=
    ⟨[2, 2], by simp [hnodes, f], 2, [2], rfl, hb, 2, [], rfl, hb, rfl⟩
  have heqs : PairsRepresent g.nodes [(a, b)] [(0, 2)] := .cons ⟨ha, hb⟩ .nil
  refine ⟨hpairs, ?_, ?_⟩
  · have hab : Derives SameName (fun s t => (s, t) ∈ [(a, b)]) a b := .given List.mem_cons_self
    exact (hclosed.derives _ heqs _ _ 1 3 hfa hfb).2 (.app rfl (.cons hab (.cons hab .nil)))
  · -- where constants are 0 and applications are 1, the given equation holds and this one does not
    intro hroot
    have hderives := (hclosed.derives _ heqs _ _ 0 1 ha hfa).1 hroot
    have hvalue : Interpretation.plainValue (fun _ => 0) (fun _ _ => 1) a =
        Interpretation.plainValue (fun _ => 0) (fun _ _ => 1) (.app f [a, a]) :=
      hderives.plainValue_eq (fun _ _ _ => rfl) (by simp [a, b, Interpretation.plainValue])
    simp [a, Interpretation.plainValue] at hvalue

end TermGraph

end Congruence

end StraightLine
