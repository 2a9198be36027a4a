import Std.Data.String.ToNat
import StraightLine.Lowering
import StraightLine.Proofs.Text
import StraightLine.SingleAssignment

/-!
# FreshNames — generated names of different generators differ

A name is read back from its end: the digits after the last underscore are its number, and what
stands before is its stem.

* `FreshNames.Numbered` — the names that a generator recognizes;
* `FreshNames.owns_nameAt` — a generator recognizes exactly the names over its own stem;
* `FreshNames.nameAt_inj` — a name determines its stem and its number;
* `FreshNames.issue` — what a generator hands out after so many names;
* `FreshNames.issued_apart` — the generators of the passes never hand out one name.
-/

namespace StraightLine

namespace FreshNames

/-- The stem, an underscore and at least one digit. -/
def Numbered (stem name : String) : Prop :=
  ∃ digits : List Char, digits ≠ [] ∧ digits.all Char.isDigit = true ∧
    name = stem ++ "_" ++ String.ofList digits

theorem owns_iff_numbered {fresh : FreshNames} {name : String} :
    fresh.owns name = true ↔ Numbered fresh.stem name := by
  rw [owns_iff]
  refine exists_congr fun digits => and_congr_right fun _ => and_congr_right fun _ => ?_
  rw [← String.toList_inj]
  simp

theorem owns_eq_false_iff {fresh : FreshNames} {name : String} :
    fresh.owns name = false ↔ ¬ Numbered fresh.stem name := by
  rw [← owns_iff_numbered, Bool.not_eq_true]

theorem checkUnowned_ofStem {stem : String} {names : List String} :
    (ofStem stem).checkUnowned names = .ok () ↔ ∀ x ∈ names, ¬ Numbered stem x := by
  rw [checkUnowned_eq_ok]
  exact forall₂_congr fun _ _ => owns_eq_false_iff

/-- A refused name is one of the names and has the shape of generated ones. -/
theorem checkUnowned_error {stem : String} {names : List String} {e : CompileError}
    (h : (ofStem stem).checkUnowned names = .error e) :
    ∃ x ∈ names, Numbered stem x ∧ e = .reservedName x stem := by
  induction names with
  | nil =>
      cases h
  | cons x rest ih =>
      unfold checkUnowned at h
      split at h
      · next hx =>
          cases h
          exact ⟨x, List.mem_cons_self, owns_iff_numbered.1 hx, rfl⟩
      · rcases ih h with ⟨y, hy, hnumbered, he⟩
        exact ⟨y, List.mem_cons_of_mem _ hy, hnumbered, he⟩

/-- Where only the check of the names can fail, an error names a reserved one. -/
theorem exists_reserved {α : Type} {stem : String} {names : List String}
    {result : Except CompileError α}
    (hok : (ofStem stem).checkUnowned names = .ok () → ∃ a, result = .ok a)
    (herror : ∀ e, (ofStem stem).checkUnowned names = .error e → result = .error e)
    {e : CompileError} (he : result = .error e) :
    ∃ x ∈ names, Numbered stem x ∧ e = .reservedName x stem := by
  cases hcheck : (ofStem stem).checkUnowned names with
  | error e' =>
      cases (herror e' hcheck).symm.trans he
      exact checkUnowned_error hcheck
  | ok _ =>
      rcases hok hcheck with ⟨a, ha⟩
      cases ha.symm.trans he

theorem toList_nameAt (stem : String) (k : Nat) :
    (nameAt stem k).toList = stem.toList ++ '_' :: Nat.toDigits 10 k := by
  simp [nameAt, Nat.toList_repr, ToString.toString]

theorem underscore_notMem_of_digits {digits : List Char} (h : digits.all Char.isDigit = true) :
    '_' ∉ digits := by
  intro hmem
  have := List.all_eq_true.1 h '_' hmem
  exact absurd this (by decide)

theorem all_isDigit_toDigits (k : Nat) : (Nat.toDigits 10 k).all Char.isDigit = true := by
  rw [List.all_eq_true]
  intro c hc
  exact Nat.isDigit_of_mem_toDigits (by omega) (by omega) hc

theorem owns_nameAt {fresh : FreshNames} {stem : String} {k : Nat} :
    fresh.owns (nameAt stem k) = true ↔ fresh.stem = stem := by
  rw [owns_iff]
  constructor
  · rintro ⟨digits, _, hall, hname⟩
    rw [toList_nameAt] at hname
    -- the digits hold no underscore, so both splits are at the last one
    have hstem := (Text.split_last Nat.underscore_not_in_toDigits
      (underscore_notMem_of_digits hall) hname).1
    exact (String.toList_inj.1 hstem).symm
  · rintro rfl
    exact ⟨_, Nat.toDigits_ne_nil, all_isDigit_toDigits k, toList_nameAt fresh.stem k⟩

theorem nameAt_inj {p q : String} {i j : Nat} : nameAt p i = nameAt q j ↔ p = q ∧ i = j := by
  constructor
  · intro h
    -- a generator over `p` recognizes the name, so its stem is `p`
    have hstem : p = q := by
      have howns : (ofStem p).owns (nameAt q j) = true := by
        rw [← h, owns_nameAt]
        rfl
      exact owns_nameAt.1 howns
    subst hstem
    refine ⟨rfl, ?_⟩
    simp only [nameAt, String.append_right_inj] at h
    exact Nat.repr_injective h
  · rintro ⟨rfl, rfl⟩
    rfl

theorem numbered_nameAt {p q : String} {k : Nat} : Numbered p (nameAt q k) ↔ p = q := by
  have howns : (ofStem p).owns (nameAt q k) = true ↔ p = q := owns_nameAt
  rwa [owns_iff_numbered] at howns

/-! ## Issued names -/

/-- The name that a generator hands out after `i` others. -/
def issue (stem : String) (i : Nat) : String :=
  ((ofStem stem).take i).2.nextName.1

theorem take_snd (count : Nat) (fresh : FreshNames) :
    (take count fresh).2 = { fresh with issued := fresh.issued + count } := by
  induction count generalizing fresh with
  | zero =>
      rfl
  | succ count ih =>
      simp only [take, nextName, ih, Nat.add_right_comm _ 1, Nat.add_assoc]

theorem take_fst (count : Nat) (fresh : FreshNames) :
    (take count fresh).1 = (List.range' fresh.issued count).map (nameAt fresh.stem) := by
  induction count generalizing fresh with
  | zero =>
      rfl
  | succ count ih =>
      simp only [take, nextName, ih, List.range'_succ, List.map_cons]

@[simp]
theorem issue_eq (stem : String) (i : Nat) : issue stem i = nameAt stem i := by
  simp [issue, take_snd, nextName, ofStem]

/-- Several names are issued in the order of their numbers. -/
theorem take_eq_map_issue (stem : String) (count : Nat) :
    ((ofStem stem).take count).1 = (List.range count).map (issue stem) := by
  have hissue : issue stem = nameAt stem := funext (issue_eq stem)
  rw [take_fst, hissue, List.range_eq_range']
  rfl

theorem disjoint_take {p q : String} (h : p ≠ q) (m n : Nat) :
    ((ofStem p).take m).1.Disjoint ((ofStem q).take n).1 := by
  intro x hp hq
  simp only [take_eq_map_issue, List.mem_map, issue_eq] at hp hq
  rcases hp with ⟨i, _, rfl⟩
  rcases hq with ⟨j, _, hname⟩
  exact h (nameAt_inj.1 hname).1.symm

end FreshNames

/-! ## The passes -/

/-- The stems of the passes differ in the second letter, whatever the functions are called. -/
theorem SingleAssignment.calcStem_ne_tacStem (f g : String) : calcStem f ≠ tacStem g := by
  intro h
  have := congrArg String.toList h
  simp [calcStem, tacStem] at this

theorem Lowering.stem_ne_calcStem (f g : String) : stem f ≠ SingleAssignment.calcStem g := by
  intro h
  have := congrArg String.toList h
  simp [stem, SingleAssignment.calcStem] at this

theorem Lowering.stem_ne_tacStem (f g : String) : stem f ≠ SingleAssignment.tacStem g := by
  intro h
  have := congrArg String.toList h
  simp [stem, SingleAssignment.tacStem] at this

/-- The stem of a pass determines the function. -/
theorem stem_injective {stem : String → String}
    (h : stem ∈ [SingleAssignment.calcStem, SingleAssignment.tacStem, Lowering.stem]) :
    Function.Injective stem := by
  intro f g hfg
  simp only [List.mem_cons, List.not_mem_nil, or_false] at h
  rcases h with rfl | rfl | rfl
  · exact (String.append_right_inj _).1 hfg
  · exact (String.append_right_inj _).1 hfg
  · exact (String.append_right_inj _).1 hfg

/-- Two generators hand out one name only if they have one stem, and then after equally many others;
a generator recognizes what another one hands out only if they have one stem. So the names of
different passes differ, whatever the functions are called, and so do those of one pass over
functions of different names. -/
theorem FreshNames.issued_apart :
    (∀ p q i j, issue p i = issue q j ↔ p = q ∧ i = j) ∧
    (∀ p q i k, ((ofStem q).take k).2.owns (issue p i) = true ↔ p = q) ∧
    (∀ f g h l m n, [((ofStem (SingleAssignment.calcStem f)).take l).1,
      ((ofStem (SingleAssignment.tacStem g)).take m).1,
      ((ofStem (Lowering.stem h)).take n).1].Pairwise List.Disjoint) ∧
    ∀ stem ∈ [SingleAssignment.calcStem, SingleAssignment.tacStem, Lowering.stem],
      ∀ f g m n, f ≠ g → ((ofStem (stem f)).take m).1.Disjoint ((ofStem (stem g)).take n).1 := by
  refine ⟨?_, ?_, ?_, ?_⟩
  · intro p q i j
    rw [issue_eq, issue_eq, nameAt_inj]
  · intro p q i k
    rw [issue_eq, owns_nameAt, take_snd, eq_comm]
    rfl
  · intro f g h l m n
    have hcalc := disjoint_take (SingleAssignment.calcStem_ne_tacStem f g) l m
    have hlowering := disjoint_take (Lowering.stem_ne_calcStem h f).symm l n
    have htac := disjoint_take (Lowering.stem_ne_tacStem h g).symm m n
    simp [hcalc, hlowering, htac]
  · intro stem hstem f g m n hne
    exact disjoint_take (fun h => hne (stem_injective hstem h)) m n

-- a function may be called like another one with a number behind it
example : FreshNames.issue (Lowering.stem "f_0") 1 = "_tmp_f_0_1" ∧
    (FreshNames.ofStem (Lowering.stem "f")).owns "_tmp_f_0_1" = false := by
  decide

end StraightLine
