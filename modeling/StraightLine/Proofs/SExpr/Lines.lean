import StraightLine.Proofs.SExpr

/-!
# Lines — layouts after their lines were trimmed

A reply of a solver is cut into lines, their outer blanks are removed, empty lines are dropped, and
the remaining ones are put together again. A piece without a line break stands on one line as a
whole, so the text that remains is a layout of the same pieces, though blanks may be gone from the
end of a comment.

* `SExpr.OnLines` — pieces without line breaks;
* `SExpr.laid_cut`, `SExpr.laid_join` — the lines before and after a line break;
* `SExpr.laid_trim` — a layout without its outer blanks;
* `SExpr.laid_trimmed_lines` — a layout whose lines were trimmed.
-/

namespace StraightLine

namespace SExpr

/-- No piece goes on behind the end of a line. -/
def OnLines (ps : List Piece) : Prop :=
  ∀ text, Piece.atom text ∈ ps → '\n' ∉ text

theorem OnLines.append_right {ps qs : List Piece} (h : OnLines (ps ++ qs)) : OnLines qs :=
  fun text htext => h text (List.mem_append_right ps htext)

/-! ## One piece -/

section Spelled

variable {p : Piece} {text later : List Char}

theorem Quoted.isBlank_ends (h : Quoted text) :
    ∃ first last inner, text = first :: (inner ++ [last]) ∧
      Text.isBlank first = false ∧ Text.isBlank last = false := by
  rcases h with ⟨quote, inner, hquote, _, rfl⟩
  refine ⟨quote, quote, inner, rfl, ?_⟩
  rcases hquote with rfl | rfl <;> decide

/-- A piece starts with a character that is not blank. -/
theorem Spelled.exists_cons (h : Spelled p text later) :
    ∃ c rest, text = c :: rest ∧ Text.isBlank c = false := by
  cases h with
  | opening =>
      exact ⟨'(', [], rfl, by decide⟩
  | closing =>
      exact ⟨')', [], rfl, by decide⟩
  | word htext _ =>
      cases text with
      | nil =>
          exact absurd rfl htext.1
      | cons c rest =>
          exact ⟨c, rest, rfl, (ne_of_isBare (htext.2 c List.mem_cons_self)).2.2.2.1⟩
  | quoted htext =>
      rcases htext.isBlank_ends with ⟨first, last, inner, rfl, hfirst, _⟩
      exact ⟨first, inner ++ [last], rfl, hfirst⟩

/-- A piece ends with a character that is not blank. -/
theorem Spelled.exists_concat (h : Spelled p text later) :
    ∃ front c, text = front ++ [c] ∧ Text.isBlank c = false := by
  cases h with
  | opening =>
      exact ⟨[], '(', rfl, by decide⟩
  | closing =>
      exact ⟨[], ')', rfl, by decide⟩
  | word htext _ =>
      rcases List.eq_nil_or_concat text with rfl | ⟨front, c, rfl⟩
      · exact absurd rfl htext.1
      · rw [List.concat_eq_append] at htext ⊢
        have hbare := htext.2 c (List.mem_append_right front List.mem_cons_self)
        exact ⟨front, c, rfl, (ne_of_isBare hbare).2.2.2.1⟩
  | quoted htext =>
      rcases htext.isBlank_ends with ⟨first, last, inner, rfl, _, hlast⟩
      exact ⟨first :: inner, last, rfl, hlast⟩

theorem Spelled.newline_not_mem (h : Spelled p text later) (hp : OnLines [p]) : '\n' ∉ text := by
  cases h with
  | opening =>
      decide
  | closing =>
      decide
  | word _ _ =>
      exact hp text List.mem_cons_self
  | quoted _ =>
      exact hp text List.mem_cons_self

/-- Less may stand behind a piece. -/
theorem Spelled.of_append {more : List Char} (h : Spelled p text (later ++ more)) :
    Spelled p text later := by
  cases h with
  | opening =>
      exact .opening
  | closing =>
      exact .closing
  | word htext hlater =>
      exact .word htext fun c hc => hlater c (List.mem_head?_append_of_mem_head? hc)
  | quoted htext =>
      exact .quoted htext

/-- A piece may end before a blank. -/
theorem Spelled.append_blank {b : Char} {rest : List Char} (h : Spelled p text later)
    (hb : Text.isBlank b = true) : Spelled p text (later ++ b :: rest) := by
  cases h with
  | opening =>
      exact .opening
  | closing =>
      exact .closing
  | word htext hlater =>
      cases later with
      | nil =>
          exact .word htext (ends_blank hb rest)
      | cons c later =>
          exact .word htext hlater
  | quoted htext =>
      exact .quoted htext

end Spelled

/-! ## Line breaks -/

section Break

variable {ps : List Piece} {text line rest : List Char}

/-- A layout is cut at a line break into two layouts. -/
theorem laid_cut (h : Laid ps text) (hps : OnLines ps) (htext : text = line ++ '\n' :: rest)
    (hline : '\n' ∉ line) :
    ∃ first later, ps = first ++ later ∧ Laid first line ∧ Laid later rest := by
  -- what a constructor adds has no line break, so it belongs to the line, unless it is the break
  induction h generalizing line with
  | done =>
      cases line <;> cases htext
  | @blank ps later c hc hlater ih =>
      cases line with
      | nil =>
          injection htext with _ hrest
          exact ⟨[], ps, rfl, .done, hrest ▸ hlater⟩
      | cons d line =>
          injection htext with hd htext
          subst hd
          rcases ih hps htext (List.not_mem_of_not_mem_cons hline) with
            ⟨first, later, hsplit, hfirst, hrest⟩
          exact ⟨first, later, hsplit, .blank c hc hfirst, hrest⟩
  | comment note hnote hend _ ih =>
      have hadded : '\n' ∉ ';' :: note := by simpa using hnote
      rcases Text.append_eq_append_cons hadded htext with ⟨remaining, rfl, rfl⟩
      rcases ih hps rfl (fun hmem => hline (List.mem_append_right _ hmem)) with
        ⟨first, later, hsplit, hfirst, hrest⟩
      refine ⟨first, later, hsplit, .comment note hnote (fun c hc => ?_) hfirst, hrest⟩
      exact hend c (List.mem_head?_append_of_mem_head? hc)
  | @piece p ps text later hp _ ih =>
      have hadded : '\n' ∉ text :=
        hp.newline_not_mem fun word hword => hps word (List.mem_append_left ps hword)
      rcases Text.append_eq_append_cons hadded htext with ⟨remaining, rfl, rfl⟩
      rcases ih (fun word hword => hps word (List.mem_cons_of_mem p hword)) rfl
        (fun hmem => hline (List.mem_append_right _ hmem)) with ⟨first, later, rfl, hfirst, hrest⟩
      exact ⟨p :: first, later, rfl, .piece hp.of_append hfirst, hrest⟩

/-- Two layouts are put together with a line break. -/
theorem laid_join {first later : List Piece} (hfirst : Laid first line) (hlater : Laid later rest) :
    Laid (first ++ later) (line ++ '\n' :: rest) := by
  have hblank : Text.isBlank '\n' = true := by decide
  induction hfirst with
  | done =>
      exact .blank '\n' hblank hlater
  | blank c hc _ ih =>
      exact .blank c hc ih
  | @comment _ text note hnote hend _ ih =>
      rw [List.cons_append, List.append_assoc]
      refine .comment note hnote ?_ ih
      cases text with
      | nil =>
          simp
      | cons d text =>
          exact hend
  | piece hp _ ih =>
      rw [List.cons_append, List.append_assoc]
      exact .piece (hp.append_blank hblank) ih

end Break

/-! ## Outer blanks -/

section Blanks

variable {ps : List Piece} {c : Char} {text : List Char}

theorem laid_of_blank_cons (hc : Text.isBlank c = true) (h : Laid ps (c :: text)) :
    Laid ps text := by
  generalize htext : c :: text = whole at h
  cases h with
  | done =>
      cases htext
  | blank d hd h =>
      injection htext with _ htext
      exact htext ▸ h
  | comment note _ _ _ =>
      injection htext with hd _
      exact absurd hd (ne_of_isBlank hc).2.2
  | piece hp _ =>
      rcases hp.exists_cons with ⟨d, rest, rfl, hd⟩
      injection htext with heq _
      rw [← heq, hc] at hd
      cases hd

theorem laid_of_concat_blank (hc : Text.isBlank c = true) (h : Laid ps text) {front : List Char}
    (htext : text = front ++ [c]) : Laid ps front := by
  -- the blank stands behind the last piece, on its own or at the end of a comment
  induction h generalizing front with
  | done =>
      cases front <;> cases htext
  | @blank ps later d hd hlater ih =>
      cases front with
      | nil =>
          injection htext with _ hrest
          exact hrest ▸ hlater
      | cons e front =>
          injection htext with he htext
          exact he ▸ .blank d hd (ih htext)
  | comment note hnote hend hlater ih =>
      rw [← List.cons_append] at htext
      rcases Text.append_eq_concat htext with ⟨rfl, hnote'⟩ | ⟨before, rfl, rfl⟩
      · -- the blank ends the comment, which is a comment without it, too
        cases front with
        | nil =>
            exact hlater
        | cons e front =>
            injection hnote' with hd hnote'
            subst hd hnote'
            have hfront : '\n' ∉ front := fun hmem => hnote (List.mem_append_left _ hmem)
            simpa using Laid.comment front hfront (by simp) hlater
      · refine .comment note hnote (fun d hd => ?_) (ih rfl)
        exact hend d (List.mem_head?_append_of_mem_head? hd)
  | piece hp _ ih =>
      rcases Text.append_eq_concat htext with ⟨rfl, hlast⟩ | ⟨before, rfl, rfl⟩
      · rcases hp.exists_concat with ⟨inner, d, hinner, hd⟩
        rw [hlast, List.append_singleton_inj] at hinner
        rw [← hinner.2, hc] at hd
        cases hd
      · exact .piece hp.of_append (ih rfl)

theorem laid_trim (h : Laid ps text) : Laid ps (Text.trim text) := by
  have hfront : ∀ cs : List Char, Laid ps cs → Laid ps (cs.dropWhile Text.isBlank) := by
    intro cs hcs
    induction cs with
    | nil =>
        exact hcs
    | cons c cs ih =>
        cases hc : Text.isBlank c with
        | true =>
            rw [List.dropWhile_cons_of_pos hc]
            exact ih (laid_of_blank_cons hc hcs)
        | false =>
            rw [List.dropWhile_cons_of_neg (by simp [hc])]
            exact hcs
  -- blanks at the end come first in the reversed text
  have hback : ∀ cs : List Char, Laid ps cs.reverse →
      Laid ps (cs.dropWhile Text.isBlank).reverse := by
    intro cs hcs
    induction cs with
    | nil =>
        exact hcs
    | cons c cs ih =>
        cases hc : Text.isBlank c with
        | true =>
            rw [List.dropWhile_cons_of_pos hc]
            exact ih (laid_of_concat_blank hc hcs List.reverse_cons)
        | false =>
            rw [List.dropWhile_cons_of_neg (by simp [hc])]
            exact hcs
  apply hback
  rw [List.reverse_reverse]
  exact hfront text h

end Blanks

/-! ## All lines -/

/-- A layout whose lines were trimmed. -/
theorem laid_trimmed_lines {ps : List Piece} {text : List Char} (h : Laid ps text)
    (hps : OnLines ps) : Laid ps (['\n'].intercalate (Text.lines text)) := by
  induction text using Text.line_induction generalizing ps with
  | last line hline =>
      have htrim := laid_trim h
      rw [Text.lines_eq hline]
      by_cases hempty : Text.trim line = []
      · simpa [hempty] using htrim
      · simpa [hempty] using htrim
  | more line rest hline ih =>
      rcases laid_cut h hps rfl hline with ⟨first, later, rfl, hfirst, hlater⟩
      have hjoined := laid_join (laid_trim hfirst) (ih hlater hps.append_right)
      have hblank : Text.isBlank '\n' = true := by decide
      rw [Text.lines_append_cons, Text.lines_eq hline]
      by_cases hempty : Text.trim line = []
      · -- the line is dropped together with the break behind it
        rw [hempty] at hjoined
        simpa [hempty] using laid_of_blank_cons hblank hjoined
      · rw [if_neg hempty, List.singleton_append]
        by_cases hrest : Text.lines rest = []
        · -- nothing is left of the other lines, so no break stands behind the line
          rw [hrest] at hjoined ⊢
          simpa using laid_of_concat_blank hblank hjoined rfl
        · rw [List.intercalate_cons_of_ne_nil hrest, List.append_assoc]
          exact hjoined

end SExpr

end StraightLine
