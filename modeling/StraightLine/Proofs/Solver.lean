import Mathlib.Data.List.Induction
import StraightLine.Proofs.SExpr.Lines
import StraightLine.Solver

/-!
# Solver — the model in a reply

A model gives a value to a name for each definition without parameters that stands outside of other
definitions, at any depth; of two definitions of one name, the later one counts. Where the pieces
of a reply are put on its lines does not matter.

* `Solver.Defines`, `Solver.DefinedAt`, `Solver.DefinedIn` — definitions in expressions and where
  they are;
* `Solver.Names` — names with or without bars;
* `Solver.definitionsFrom` — all definitions in reading order;
* `Solver.get?_foldl_enter` — the last definition of a name counts;
* `Solver.exists_readReply_eq_sat` — the model of every layout of a reply.
-/

namespace StraightLine

open Smt

namespace Solver

/-! ## Definitions in expressions -/

/-- The expression is a definition without parameters. -/
def Defines (e : SExpr) (name : List Char) (value : SExpr) : Prop :=
  ∃ sort, e = .list [.atom "define-fun".toList, .atom name, .list [], sort, value]

/-- There is a definition in an expression that stands in no other one. The path to it has the
positions of the items that it is in, from the outside in. -/
inductive DefinedAt : SExpr → List Nat → List Char → SExpr → Prop where
  | root {e : SExpr} {name : List Char} {value : SExpr} (h : Defines e name value) :
      DefinedAt e [] name value
  | item {items : List SExpr} {i : Nat} {item : SExpr} {path : List Nat} {name : List Char}
      {value : SExpr} (houter : ∀ name value, ¬ Defines (.list items) name value)
      (hi : items[i]? = some item) (h : DefinedAt item path name value) :
      DefinedAt (.list items) (i :: path) name value

/-- There is such a definition in one of several expressions. -/
def DefinedIn (forest : List SExpr) (path : List Nat) (name : List Char) (value : SExpr) : Prop :=
  ∃ i item inner, path = i :: inner ∧ forest[i]? = some item ∧ DefinedAt item inner name value

/-- What is at the first path is read before what is at the second one. -/
def Precedes (path later : List Nat) : Prop :=
  List.Lex (· < ·) path later

instance (path later : List Nat) : Decidable (Precedes path later) :=
  inferInstanceAs (Decidable (List.Lex _ _ _))

theorem definition?_eq_some {items : List SExpr} {name : List Char} {value : SExpr} :
    definition? items = some (name, value) ↔ Defines (.list items) name value := by
  unfold definition? Defines
  generalize "define-fun".toList = keyword
  split
  · rename_i head name' sort value'
    by_cases hhead : head = keyword
    · simp [hhead]
    · simp [hhead]
  · rename_i hother
    refine iff_of_false nofun ?_
    rintro ⟨sort, he⟩
    injection he with hitems
    exact hother _ _ _ _ hitems

theorem definition?_eq_none {items : List SExpr} :
    definition? items = none ↔ ∀ name value, ¬ Defines (.list items) name value := by
  constructor
  · intro h name value hdefines
    rw [definition?_eq_some.2 hdefines] at h
    cases h
  · intro h
    cases hdefinition : definition? items with
    | none =>
        rfl
    | some found =>
        exact absurd (definition?_eq_some.1 hdefinition) (h found.1 found.2)

/-! ## Names -/

/-- The name that an atom stands for, between bars or not. -/
def Names (atom : List Char) (x : String) : Prop :=
  atom = '|' :: (x.toList ++ ['|']) ∨ atom = x.toList ∧ atom.head? ≠ some '|'

instance (atom : List Char) (x : String) : Decidable (Names atom x) :=
  inferInstanceAs (Decidable (_ ∨ _))

theorem unbarred_of_not_bar {atom : List Char} (hfirst : atom.head? ≠ some '|')
    (hlast : atom.getLast? ≠ some '|') : unbarred atom = atom := by
  have hother : ∀ d : Char, d ≠ '|' → (d == '|') = false := fun d hd => beq_eq_false_iff_ne.2 hd
  have htrim : Text.trimBy (· == '|') ([] ++ (atom ++ [])) = atom :=
    Text.trimBy_append (by simp) (fun d hd => hother d fun hbar => hfirst (hbar ▸ hd))
      (fun d hd => hother d fun hbar => hlast (hbar ▸ hd)) (by simp)
  simpa [unbarred] using htrim

theorem unbarred_of_bars {inner : List Char} (h : '|' ∉ inner) :
    unbarred ('|' :: (inner ++ ['|'])) = inner := by
  have hother : ∀ d ∈ inner, (d == '|') = false :=
    fun d hd => beq_eq_false_iff_ne.2 fun hbar => h (hbar ▸ hd)
  have htrim : Text.trimBy (· == '|') (['|'] ++ (inner ++ ['|'])) = inner :=
    Text.trimBy_append (by simp) (fun d hd => hother d (List.mem_of_mem_head? hd))
      (fun d hd => hother d (List.mem_of_mem_getLast? hd)) (by simp)
  exact htrim

theorem ofList_eq_iff {cs : List Char} {x : String} : String.ofList cs = x ↔ cs = x.toList := by
  rw [← String.toList_inj, String.toList_ofList]

/-- What is left of an atom without its bars is the name that it stands for. -/
theorem ofList_unbarred_eq_iff {atom : List Char} (h : SExpr.Word atom ∨ SExpr.Quoted atom)
    {x : String} : String.ofList (unbarred atom) = x ↔ Names atom x := by
  rw [ofList_eq_iff, Names]
  rcases h with hword | ⟨quote, inner, rfl | rfl, hinner, rfl⟩
  · have hbar : '|' ∉ atom := fun hmem => absurd (hword.2 _ hmem) (by decide)
    have hfirst : atom.head? ≠ some '|' := fun h => hbar (List.mem_of_mem_head? h)
    have hlast : atom.getLast? ≠ some '|' := fun h => hbar (List.mem_of_mem_getLast? h)
    rw [unbarred_of_not_bar hfirst hlast, or_iff_right, and_iff_left hfirst]
    rintro rfl
    exact hbar List.mem_cons_self
  · rw [unbarred_of_bars hinner]
    simp
  · -- a bar inside the quotation marks is no outer one
    have hlast : ('"' :: (inner ++ ['"'])).getLast? ≠ some '|' := by
      rw [← List.cons_append, List.getLast?_concat]
      decide
    rw [unbarred_of_not_bar (by simp) hlast]
    simp

/-! ## All definitions -/

/-- A definition and where it stands. -/
structure Entry where
  path : List Nat
  name : List Char
  value : SExpr

/-- The same definition, seen from the list whose item with this position it is in. -/
def Entry.under (d : Entry) (i : Nat) : Entry :=
  { d with path := i :: d.path }

mutual

/-- The definitions in an expression, in reading order. -/
def definitionsIn : SExpr → List Entry
  | .atom _ => []
  | .list items =>
      match definition? items with
      | some (name, value) => [⟨[], name, value⟩]
      | none => definitionsFrom 0 items

/-- The definitions in expressions of which the first one has a given position. -/
def definitionsFrom (i : Nat) : List SExpr → List Entry
  | [] => []
  | item :: rest => (definitionsIn item).map (·.under i) ++ definitionsFrom (i + 1) rest

end

theorem not_definedAt_atom {text : List Char} {path : List Nat} {name : List Char} {value : SExpr} :
    ¬ DefinedAt (.atom text) path name value := by
  intro h
  cases h with
  | root h =>
      rcases h with ⟨sort, he⟩
      cases he

mutual

theorem mem_definitionsIn : ∀ {e : SExpr} {d : Entry},
    d ∈ definitionsIn e ↔ DefinedAt e d.path d.name d.value
  | .atom text, d => by
      rw [definitionsIn]
      exact iff_of_false List.not_mem_nil not_definedAt_atom
  | .list items, ⟨path, name, value⟩ => by
      rw [definitionsIn]
      split
      · -- the list is a definition, so none of its items counts
        rename_i name' value' hdefinition
        have hdefines := definition?_eq_some.1 hdefinition
        constructor
        · intro h
          cases List.mem_singleton.1 h
          exact .root hdefines
        · intro h
          cases h with
          | root h =>
              rw [definition?_eq_some.2 h] at hdefinition
              cases hdefinition
              exact List.mem_singleton.2 rfl
          | item houter _ _ =>
              exact absurd hdefines (houter name' value')
      · rename_i hdefinition
        have hnone := definition?_eq_none.1 hdefinition
        rw [mem_definitionsFrom]
        constructor
        · rintro ⟨j, item, inner, hpath, hj, h⟩
          rw [Nat.zero_add] at hpath
          exact hpath ▸ .item hnone hj h
        · intro h
          cases h with
          | root h =>
              exact absurd h (hnone name value)
          | @item _ j item inner _ _ _ hj h =>
              exact ⟨j, item, inner, by rw [Nat.zero_add], hj, h⟩

theorem mem_definitionsFrom : ∀ {items : List SExpr} {i : Nat} {d : Entry},
    d ∈ definitionsFrom i items ↔ ∃ j item inner,
      d.path = (i + j) :: inner ∧ items[j]? = some item ∧ DefinedAt item inner d.name d.value
  | [], i, d => by
      simp [definitionsFrom]
  | item :: rest, i, d => by
      rw [definitionsFrom, List.mem_append, List.mem_map, mem_definitionsFrom]
      -- an item of the rest has the next position in the whole list
      constructor
      · rintro (⟨inner, hinner, rfl⟩ | ⟨j, item', inner, hpath, hj, h⟩)
        · exact ⟨0, item, inner.path, rfl, rfl, mem_definitionsIn.1 hinner⟩
        · exact ⟨j + 1, item', inner, by rw [hpath, Nat.add_right_comm, Nat.add_assoc], hj, h⟩
      · rintro ⟨j, item', inner, hpath, hj, h⟩
        cases j with
        | zero =>
            cases hj
            cases d
            cases hpath
            exact Or.inl ⟨⟨inner, _, _⟩, mem_definitionsIn.2 h, rfl⟩
        | succ j =>
            exact Or.inr ⟨j, item', inner, by rw [hpath, Nat.add_right_comm, Nat.add_assoc], hj, h⟩

end

theorem mem_definitionsFrom_zero {forest : List SExpr} {d : Entry} :
    d ∈ definitionsFrom 0 forest ↔ DefinedIn forest d.path d.name d.value := by
  simp only [mem_definitionsFrom, DefinedIn, Nat.zero_add]

/-! ## Reading order -/

theorem not_precedes_self (path : List Nat) : ¬ Precedes path path :=
  List.lex_irrefl Nat.lt_irrefl path

theorem Precedes.asymm {path later : List Nat} (h : Precedes path later) : ¬ Precedes later path :=
  List.lex_asymm (fun hlt => Nat.lt_asymm hlt) h

mutual

theorem pairwise_definitionsIn : ∀ e : SExpr,
    (definitionsIn e).Pairwise fun d d' => Precedes d.path d'.path
  | .atom text => by
      simp [definitionsIn]
  | .list items => by
      rw [definitionsIn]
      split
      · exact List.pairwise_singleton _ _
      · exact pairwise_definitionsFrom items 0

theorem pairwise_definitionsFrom : ∀ (items : List SExpr) (i : Nat),
    (definitionsFrom i items).Pairwise fun d d' => Precedes d.path d'.path
  | [], i => by
      simp [definitionsFrom]
  | item :: rest, i => by
      rw [definitionsFrom, List.pairwise_append, List.pairwise_map]
      refine ⟨?_, pairwise_definitionsFrom rest (i + 1), ?_⟩
      · exact (pairwise_definitionsIn item).imp fun hlt => .cons hlt
      · -- paths into the first item are smaller at their first position
        intro d hd d' hd'
        rcases List.mem_map.1 hd with ⟨inner, _, rfl⟩
        rcases mem_definitionsFrom.1 hd' with ⟨j, _, path, hpath, _⟩
        rw [hpath]
        exact .rel (by omega)

end

/-! ## Models -/

/-- The name under which a model has the value. -/
def Entry.key (d : Entry) : String :=
  String.ofList (unbarred d.name)

/-- The model with one definition more. -/
def enter (m : Model) (d : Entry) : Model :=
  m.insert d.key (String.ofList d.value.text)

mutual

theorem foldl_definitionsIn : ∀ (e : SExpr) (m : Model),
    (definitionsIn e).foldl enter m = addDefinitions m e
  | .atom text, m => by
      rfl
  | .list items, m => by
      rw [definitionsIn, addDefinitions]
      cases definition? items with
      | none =>
          exact foldl_definitionsFrom items m 0
      | some found =>
          rfl

theorem foldl_definitionsFrom : ∀ (items : List SExpr) (m : Model) (i : Nat),
    (definitionsFrom i items).foldl enter m = addAllDefinitions m items
  | [], m, i => by
      rfl
  | item :: rest, m, i => by
      have hunder : ∀ (m : Model) (d : Entry), enter m (d.under i) = enter m d := fun _ _ => rfl
      rw [definitionsFrom, addAllDefinitions, List.foldl_append, List.foldl_map]
      simp only [hunder]
      rw [foldl_definitionsIn, foldl_definitionsFrom]

end

/-- The last definition of a name gives it its value. -/
theorem get?_foldl_enter {ds : List Entry}
    (h : ds.Pairwise fun d d' => Precedes d.path d'.path) {x v : String} :
    (ds.foldl enter .empty).get? x = some v ↔
      ∃ d ∈ ds, d.key = x ∧ v = String.ofList d.value.text ∧
        ∀ d' ∈ ds, d'.key = x → ¬ Precedes d.path d'.path := by
  -- the definition entered last stands behind all others
  induction ds using List.reverseRecOn with
  | nil =>
      simp
  | append_singleton ds last ih =>
      rcases List.pairwise_append.1 h with ⟨hds, _, hbefore⟩
      have hlast : ∀ d ∈ ds ++ [last], ¬ Precedes last.path d.path := by
        intro d hd
        rcases List.mem_append.1 hd with hd | hd
        · exact (hbefore d hd last List.mem_cons_self).asymm
        · rw [List.mem_singleton.1 hd]
          exact not_precedes_self last.path
      rw [List.foldl_append, List.foldl_cons, List.foldl_nil, enter, Model.get?_insert]
      by_cases hlastkey : last.key = x
      · rw [if_pos hlastkey]
        constructor
        · intro hv
          injection hv with hv
          exact ⟨last, by simp, hlastkey, hv.symm, fun d hd _ => hlast d hd⟩
        · rintro ⟨d, hd, _, rfl, hmax⟩
          rcases List.mem_append.1 hd with hd | hd
          · exact absurd (hbefore d hd last List.mem_cons_self) (hmax last (by simp) hlastkey)
          · rw [List.mem_singleton.1 hd]
      · rw [if_neg hlastkey, ih hds]
        constructor
        · rintro ⟨d, hd, hkey, hv, hmax⟩
          refine ⟨d, List.mem_append_left _ hd, hkey, hv, fun d' hd' hkey' => ?_⟩
          rcases List.mem_append.1 hd' with hd' | hd'
          · exact hmax d' hd' hkey'
          · exact absurd (List.mem_singleton.1 hd' ▸ hkey') hlastkey
        · rintro ⟨d, hd, hkey, hv, hmax⟩
          rcases List.mem_append.1 hd with hd | hd
          · exact ⟨d, hd, hkey, hv, fun d' hd' => hmax d' (List.mem_append_left _ hd')⟩
          · exact absurd (List.mem_singleton.1 hd ▸ hkey) hlastkey

/-! ## Replies -/

/-- The name of a definition is an atom of the expressions that it is in. -/
theorem DefinedAt.legible_name {e : SExpr} {path : List Nat} {name : List Char} {value : SExpr}
    (h : DefinedAt e path name value) (he : e.Legible) : SExpr.Word name ∨ SExpr.Quoted name := by
  induction h with
  | root h =>
      rcases h with ⟨sort, rfl⟩
      exact he.2.1
  | item _ hi _ ih =>
      exact ih (SExpr.allLegible_iff.1 he _ (List.mem_of_getElem? hi))

theorem DefinedIn.legible_name {forest : List SExpr} {path : List Nat} {name : List Char}
    {value : SExpr} (h : DefinedIn forest path name value) (hforest : SExpr.AllLegible forest) :
    SExpr.Word name ∨ SExpr.Quoted name := by
  rcases h with ⟨i, item, inner, _, hi, hitem⟩
  exact hitem.legible_name (SExpr.allLegible_iff.1 hforest item (List.mem_of_getElem? hi))

theorem readReply_sat {forest : List SExpr} {text : String}
    (hlines : SExpr.OnLines (SExpr.flatAll forest))
    (h : SExpr.Laid (SExpr.flatAll forest) text.toList) :
    readReply ("sat\n" ++ text) = .ok (.sat (addAllDefinitions .empty forest)) := by
  have hsplit : ("sat\n" ++ text).toList = "sat".toList ++ '\n' :: text.toList := by simp
  have hfirst : Text.lines "sat".toList = ["sat".toList] := by decide
  have hforest := SExpr.readAll_of_laid (SExpr.laid_trimmed_lines h hlines)
  rw [readReply, hsplit, Text.lines_append_cons, hfirst, List.singleton_append]
  dsimp only
  rw [if_neg (by decide), if_neg (by decide), if_pos rfl, readModel, hforest]

/-- A reply gives each name the value of its last definition, however it is laid out. -/
theorem exists_readReply_eq_sat {forest : List SExpr} (hforest : SExpr.AllLegible forest)
    (hlines : SExpr.OnLines (SExpr.flatAll forest)) :
    ∃ m : Model,
      (∀ text : String, SExpr.Laid (SExpr.flatAll forest) text.toList →
        readReply ("sat\n" ++ text) = .ok (.sat m)) ∧
      ∀ x v : String, m.get? x = some v ↔
        ∃ path name value, DefinedIn forest path name value ∧ Names name x ∧
          v = String.ofList value.text ∧
          ∀ path' name' value', DefinedIn forest path' name' value' → Names name' x →
            ¬ Precedes path path' := by
  -- only legible names lose their bars as `Names` says; `|a` would lose one, too
  have hkey : ∀ {d : Entry} {x : String}, d ∈ definitionsFrom 0 forest →
      (d.key = x ↔ Names d.name x) :=
    fun hd => ofList_unbarred_eq_iff ((mem_definitionsFrom_zero.1 hd).legible_name hforest)
  refine ⟨addAllDefinitions .empty forest, fun text => readReply_sat hlines, fun x v => ?_⟩
  rw [← foldl_definitionsFrom forest .empty 0, get?_foldl_enter (pairwise_definitionsFrom forest 0)]
  constructor
  · rintro ⟨d, hd, hdkey, hv, hmax⟩
    refine ⟨d.path, d.name, d.value, mem_definitionsFrom_zero.1 hd, (hkey hd).1 hdkey, hv, ?_⟩
    intro path' name' value' h' hname'
    have hd' : ⟨path', name', value'⟩ ∈ definitionsFrom 0 forest := mem_definitionsFrom_zero.2 h'
    exact hmax _ hd' ((hkey hd').2 hname')
  · rintro ⟨path, name, value, h, hx, hv, hmax⟩
    have hd : ⟨path, name, value⟩ ∈ definitionsFrom 0 forest := mem_definitionsFrom_zero.2 h
    refine ⟨_, hd, (hkey hd).2 hx, hv, fun d' hd' hdkey' => ?_⟩
    exact hmax _ _ _ (mem_definitionsFrom_zero.1 hd') ((hkey hd').1 hdkey')

/-- A list with two definitions of one name and a function between them. -/
def sampleForest : List SExpr :=
  [.list [.atom "model".toList,
    .list [.atom "define-fun".toList, .atom "|a|".toList, .list [], .atom "S".toList,
      .atom "v0".toList],
    .list [.atom "define-fun".toList, .atom "f".toList,
      .list [.list [.atom "x".toList, .atom "S".toList]], .atom "S".toList, .atom "x".toList],
    .list [.atom "define-fun".toList, .atom "a".toList, .list [], .atom "S".toList,
      .atom "v1".toList]]]

theorem exists_readReply_eq_sat_sample :
    ∃ m : Model,
      readReply ("sat\n" ++ ("(model (define-fun |a| () S v0) " ++
        "(define-fun f ((x S)) S x) (define-fun a () S v1))\n")) = .ok (.sat m) ∧
      readReply ("sat\n" ++ ("\n  ; two values \n(model (define-fun |a| () S v0) " ++
        "(define-fun f ((x S)) S x) (define-fun a () S v1))\n")) = .ok (.sat m) ∧
      m.get? "a" = some "v1" ∧ m.get? "f" = none := by
  have hlegible : SExpr.AllLegible sampleForest := by
    refine ⟨⟨.inl ?_, ⟨.inl ?_, .inr ⟨'|', ['a'], .inl rfl, ?_, rfl⟩, trivial, .inl ?_, .inl ?_,
        trivial⟩,
      ⟨.inl ?_, .inl ?_, ⟨⟨.inl ?_, .inl ?_, trivial⟩, trivial⟩, .inl ?_, .inl ?_, trivial⟩,
      ⟨.inl ?_, .inl ?_, trivial, .inl ?_, .inl ?_, trivial⟩, trivial⟩, trivial⟩ <;> decide
  have hlines : SExpr.OnLines (SExpr.flatAll sampleForest) := by
    unfold SExpr.OnLines
    simp [sampleForest, SExpr.flatAll, SExpr.flat, or_imp, forall_and]
  have hlaid := SExpr.laid_lines (SExpr.allLegible_iff.1 hlegible)
  have hcomment : SExpr.Laid (SExpr.flatAll sampleForest)
      ('\n' :: ' ' :: ' ' :: ';' :: (" two values ".toList ++ '\n' :: SExpr.lines sampleForest)) :=
    .blank _ (by decide) (.blank _ (by decide) (.blank _ (by decide)
      (.comment _ (by decide) (by simp) (.blank _ (by decide) hlaid))))
  have htext : ("(model (define-fun |a| () S v0) " ++
      "(define-fun f ((x S)) S x) (define-fun a () S v1))\n").toList = SExpr.lines sampleForest := by
    simp [sampleForest, SExpr.lines, SExpr.text, SExpr.textBefore, SExpr.itemsBefore]
  have htext' : ("\n  ; two values \n(model (define-fun |a| () S v0) " ++
      "(define-fun f ((x S)) S x) (define-fun a () S v1))\n").toList =
        '\n' :: ' ' :: ' ' :: ';' :: (" two values ".toList ++ '\n' :: SExpr.lines sampleForest) := by
    rw [← htext]
    simp
  have hall : ∀ {path : List Nat} {name : List Char} {value : SExpr},
      DefinedIn sampleForest path name value →
        path = [0, 1] ∧ name = "|a|".toList ∨ path = [0, 3] ∧ name = "a".toList := by
    intro path name value h
    have hmem : ⟨path, name, value⟩ ∈ definitionsFrom 0 sampleForest := mem_definitionsFrom_zero.2 h
    have hentries : definitionsFrom 0 sampleForest =
        [⟨[0, 1], "|a|".toList, .atom "v0".toList⟩, ⟨[0, 3], "a".toList, .atom "v1".toList⟩] := rfl
    rw [hentries] at hmem
    rcases List.mem_cons.1 hmem with heq | hmem
    · injection heq with hpath hname _
      exact Or.inl ⟨hpath, hname⟩
    · injection List.mem_singleton.1 hmem with hpath hname _
      exact Or.inr ⟨hpath, hname⟩
  rcases exists_readReply_eq_sat hlegible hlines with ⟨m, hread, hget⟩
  refine ⟨m, hread _ ?_, hread _ ?_, ?_, ?_⟩
  · exact htext ▸ hlaid
  · exact htext' ▸ hcomment
  · have hlast : DefinedIn sampleForest [0, 3] "a".toList (.atom "v1".toList) :=
      ⟨0, _, [3], rfl, rfl, .item (definition?_eq_none.1 rfl) rfl (.root ⟨_, rfl⟩)⟩
    refine (hget "a" "v1").2 ⟨_, _, _, hlast, by decide, ?_, ?_⟩
    · simp [SExpr.text, SExpr.textBefore]
    · intro path' name' value' h' _
      rcases hall h' with ⟨rfl, _⟩ | ⟨rfl, _⟩ <;> decide
  · rw [Option.eq_none_iff_forall_ne_some]
    intro v hv
    rcases (hget "f" v).1 hv with ⟨path, name, value, h, hname, _⟩
    rcases hall h with ⟨_, rfl⟩ | ⟨_, rfl⟩ <;> exact absurd hname (by decide)

end Solver

end StraightLine
