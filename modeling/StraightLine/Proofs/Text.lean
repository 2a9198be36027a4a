import Mathlib.Data.List.Basic
import StraightLine.Text

/-!
# Text — splitting at a separator

A text that contains a separator once, or whose parts on one side do not contain it, is split there
in one way, and a longest run ends where it cannot go on. Printed programs and generated names are
read back with these lemmas.

* `Text.split_first`, `Text.split_last` — the parts before the first and after the last separator;
* `Text.append_eq_append_cons`, `Text.append_eq_concat` — where a separator or a last element is in
  a text that has two parts;
* `Text.span_append`, `Text.stops_dropWhile` — a longest run and what follows it;
* `Text.trimBy_append` — what is trimmed on both sides of a text;
* `Text.line_induction` — induction on the lines of a text;
* `Text.lines_append_cons`, `Text.lines_eq` — lines one after another, and a single one.
-/

namespace StraightLine

namespace Text

variable {α : Type} {c : α} {a b a' b' : List α}

theorem split_first (ha : c ∉ a) (ha' : c ∉ a') (h : a ++ c :: b = a' ++ c :: b') :
    a = a' ∧ b = b' := by
  -- both parts end where the separator is met first
  induction a generalizing a' with
  | nil =>
      cases a' with
      | nil =>
          injection h with _ h
          exact ⟨rfl, h⟩
      | cons x a' =>
          injection h with hx _
          exact absurd (hx ▸ List.mem_cons_self) ha'
  | cons x a ih =>
      cases a' with
      | nil =>
          injection h with hx _
          exact absurd (hx ▸ List.mem_cons_self) ha
      | cons y a' =>
          injection h with hxy h
          rcases ih (List.not_mem_of_not_mem_cons ha) (List.not_mem_of_not_mem_cons ha') h with
            ⟨rfl, rfl⟩
          exact ⟨congrArg (· :: a) hxy, rfl⟩

/-- The last separator is the first one from behind. -/
theorem split_last (hb : c ∉ b) (hb' : c ∉ b') (h : a ++ c :: b = a' ++ c :: b') :
    a = a' ∧ b = b' := by
  have hreverse : b.reverse ++ c :: a.reverse = b'.reverse ++ c :: a'.reverse := by
    simpa using congrArg List.reverse h
  rcases split_first (by simpa using hb) (by simpa using hb') hreverse with ⟨hb, ha⟩
  exact ⟨List.reverse_injective ha, List.reverse_injective hb⟩

/-- A text without the separator ends before it. -/
theorem append_eq_append_cons (ha : c ∉ a) (h : a ++ b = a' ++ c :: b') :
    ∃ rest, a' = a ++ rest ∧ b = rest ++ c :: b' := by
  rcases List.append_eq_append_iff.1 h with hafter | ⟨rest, rfl, hb⟩
  · exact hafter
  · cases rest with
    | nil =>
        exact ⟨[], by simp, hb.symm⟩
    | cons x rest =>
        injection hb with hx _
        exact absurd (by simp [hx]) ha

/-- The last element of two parts is the last one of the second part, unless that is empty. -/
theorem append_eq_concat (h : a ++ b = a' ++ [c]) :
    b = [] ∧ a = a' ++ [c] ∨ ∃ rest, b = rest ++ [c] ∧ a' = a ++ rest := by
  rcases List.eq_nil_or_concat b with rfl | ⟨rest, d, rfl⟩
  · exact Or.inl ⟨rfl, by simpa using h⟩
  · rw [List.concat_eq_append, ← List.append_assoc, List.append_singleton_inj] at h
    exact Or.inr ⟨rest, by simp [h.2], h.1.symm⟩

/-- A run ends where an element without its property follows. -/
theorem span_append {p : α → Bool} {run later : List α} (hrun : ∀ d ∈ run, p d = true)
    (hlater : ∀ d ∈ later.head?, p d = false) :
    (run ++ later).takeWhile p = run ∧ (run ++ later).dropWhile p = later := by
  rw [List.takeWhile_append_of_pos hrun, List.dropWhile_append_of_pos hrun]
  cases later with
  | nil =>
      simp
  | cons d later =>
      simp [hlater d rfl]

/-- What a longest run leaves starts with an element without its property. -/
theorem stops_dropWhile (p : α → Bool) (cs : List α) :
    ∀ d ∈ (cs.dropWhile p).head?, p d = false := by
  intro d hd
  have hnot := List.head?_dropWhile_not p cs
  rw [Option.mem_def] at hd
  rw [hd] at hnot
  exact hnot

/-! ## Trimming -/

theorem trimBy_append {p : Char → Bool} {before text after : List Char}
    (hbefore : ∀ d ∈ before, p d = true) (hfirst : ∀ d ∈ text.head?, p d = false)
    (hlast : ∀ d ∈ text.getLast?, p d = false) (hafter : ∀ d ∈ after, p d = true) :
    trimBy p (before ++ (text ++ after)) = text := by
  cases text with
  | nil =>
      have hend : ∀ d ∈ ([] : List Char).head?, p d = false := by simp
      have hall := (span_append (List.forall_mem_append.2 ⟨hbefore, hafter⟩) hend).2
      rw [List.append_nil] at hall
      rw [trimBy, List.nil_append, hall, List.reverse_nil, List.dropWhile_nil, List.reverse_nil]
  | cons d text =>
      have hfront : (before ++ (d :: text ++ after)).dropWhile p = d :: text ++ after :=
        (span_append hbefore (by simpa using hfirst)).2
      have hend : ∀ e ∈ (d :: text).reverse.head?, p e = false := by
        rw [List.head?_reverse]
        exact hlast
      have hback : (after.reverse ++ (d :: text).reverse).dropWhile p = (d :: text).reverse :=
        (span_append (by simpa using hafter) hend).2
      rw [trimBy, hfront, List.reverse_append, hback, List.reverse_reverse]

/-! ## Lines -/

theorem splitFrom_eq_append (separates : Char → Bool) (found : List (List Char))
    (part cs : List Char) :
    splitFrom separates found part cs =
      found.reverse ++ List.splitOnPPrepend separates cs part := by
  induction cs generalizing found part with
  | nil =>
      simp [splitFrom]
  | cons d rest ih =>
      cases hd : separates d with
      | true =>
          simp [splitFrom, List.splitOnPPrepend_cons_eq_if, hd, ih]
      | false =>
          simp [splitFrom, List.splitOnPPrepend_cons_eq_if, hd, ih]

theorem split_eq_splitOnP (separates : Char → Bool) (cs : List Char) :
    split separates cs = cs.splitOnP separates := by
  rw [split, splitFrom_eq_append, List.reverse_nil, List.nil_append, List.splitOnP]

/-- A text is one line, or a line before a line break and a text. -/
@[elab_as_elim]
theorem line_induction {motive : List Char → Prop} (last : ∀ line, '\n' ∉ line → motive line)
    (more : ∀ line rest, '\n' ∉ line → motive rest → motive (line ++ '\n' :: rest))
    (cs : List Char) : motive cs := by
  induction h : cs.length using Nat.strongRecOn generalizing cs with
  | ind n ih =>
      by_cases hbreak : '\n' ∈ cs
      · rcases List.eq_append_cons_of_mem hbreak with ⟨line, rest, rfl, hline⟩
        have hlength : rest.length < n := by
          rw [← h, List.length_append, List.length_cons]
          omega
        exact more line rest hline (ih rest.length hlength rest rfl)
      · exact last cs hbreak

/-- The lines before and after a line break. -/
theorem lines_append_cons (line rest : List Char) :
    lines (line ++ '\n' :: rest) = lines line ++ lines rest := by
  simp only [lines, split_eq_splitOnP]
  rw [List.splitOnP_append_cons _ _ (by rfl), List.map_append, List.filter_append]

theorem lines_eq {line : List Char} (h : '\n' ∉ line) :
    lines line = if trim line = [] then [] else [trim line] := by
  have hrun : ∀ d ∈ line, (d == '\n') = false := by
    intro d hd
    exact beq_eq_false_iff_ne.2 fun heq => h (heq ▸ hd)
  rw [lines, split_eq_splitOnP, List.splitOnP_eq_singleton hrun]
  by_cases htrim : trim line = []
  · simp [htrim]
  · simp [htrim]

end Text

end StraightLine
