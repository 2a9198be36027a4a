import StraightLine.Proofs.Grammar
import StraightLine.Proofs.Text
import StraightLine.Token.Lexer

/-!
# Lexer — texts put together from tokens

A text that is put together from words, signs and blanks is scanned into its words and signs,
wherever it stands in its source, if no word is glued to another and no two slashes meet.

* `Token.Scans` — a run of characters and the tokens that it is scanned into;
* `Token.scans_blank`, `Token.scans_sign`, `Token.scans_word` — what may stand before such a run;
* `Token.exists_scan` — the lexemes of a whole text.
-/

namespace StraightLine

namespace Token

open Grammar

/-- The characters are scanned into these tokens from any place. -/
def Scans (cs : List Char) (ts : List Token) : Prop :=
  ∀ (found : List Lexeme) (offset : Nat),
    ∃ ls, scanFrom found offset cs = .ok (found.reverse ++ ls) ∧ tokens ls = ts

theorem scans_nil : Scans [] [] := by
  intro found offset
  exact ⟨[], by simp [scanFrom], rfl⟩

theorem exists_scan {source : String} {ts : List Token} (h : Scans source.toList ts) :
    ∃ ls, scan source = .ok ls ∧ tokens ls = ts :=
  h [] 0

/-- A run does not go on the word before it. -/
def Apart (cs : List Char) : Prop :=
  ∀ c ∈ cs.head?, Identifier.continues c = false

theorem apart_cons {c : Char} (h : Identifier.continues c = false) (cs : List Char) :
    Apart (c :: cs) := by
  intro d hd
  cases hd
  exact h

section Scans

variable {c : Char} {cs : List Char} {ts : List Token}

/-- The scan of a character that does not open a comment. -/
theorem scanFrom_cons (h : c ≠ '/' ∨ cs.head? ≠ some '/') (found : List Lexeme) (offset : Nat) :
    scanFrom found offset (c :: cs) =
      if isBlank c then
        scanFrom found (offset + c.utf8Size) cs
      else if Identifier.opens c then
        scanFrom
          (⟨ofWord (c :: cs.takeWhile Identifier.continues), offset,
            offset + byteCount (c :: cs.takeWhile Identifier.continues)⟩ :: found)
          (offset + byteCount (c :: cs.takeWhile Identifier.continues))
          (cs.dropWhile Identifier.continues)
      else
        match ofSign? c with
        | some token =>
            scanFrom (⟨token, offset, offset + c.utf8Size⟩ :: found) (offset + c.utf8Size) cs
        | none => .error ⟨offset, c⟩ := by
  -- only two slashes in front of the text are read before anything else is looked at
  rw [scanFrom.eq_def]
  split
  · next heq =>
      cases heq
  · next later heq =>
      cases heq
      simp at h
  · next heq =>
      cases heq
      rfl

theorem scans_blank (hc : isBlank c = true) (h : Scans cs ts) : Scans (c :: cs) ts := by
  intro found offset
  have hslash : c ≠ '/' := by
    rintro rfl
    exact absurd hc (by decide)
  rw [scanFrom_cons (Or.inl hslash), if_pos hc]
  exact h found _

theorem plain_of_ofSign? {t : Token} (h : ofSign? c = some t) :
    isBlank c = false ∧ Identifier.opens c = false := by
  unfold ofSign? at h
  split at h
  case h_8 =>
    split at h
    · -- none of the few operator signs is a blank or a letter
      next hc =>
        have hsigns : (operatorSigns.all fun c => !isBlank c && !Identifier.opens c) = true := by
          decide
        have hplain := List.all_eq_true.1 hsigns c (List.contains_iff_mem.1 hc)
        simpa using hplain
    · cases h
  all_goals decide

theorem scans_sign {t : Token} (hsign : ofSign? c = some t)
    (hslash : c ≠ '/' ∨ cs.head? ≠ some '/') (h : Scans cs ts) : Scans (c :: cs) (t :: ts) := by
  intro found offset
  rcases plain_of_ofSign? hsign with ⟨hblank, hopens⟩
  rw [scanFrom_cons hslash]
  simp only [hblank, hopens, hsign, Bool.false_eq_true, if_false]
  rcases h (⟨t, offset, offset + c.utf8Size⟩ :: found) (offset + c.utf8Size) with ⟨ls, hscan, hls⟩
  refine ⟨⟨t, offset, offset + c.utf8Size⟩ :: ls, ?_, ?_⟩
  · rw [hscan]
    simp
  · rw [← hls]
    rfl

theorem isBlank_of_opens (h : Identifier.opens c = true) : isBlank c = false := by
  by_contra hblank
  simp only [isBlank, Bool.not_eq_false, Bool.or_eq_true, beq_iff_eq] at hblank
  rcases hblank with ((rfl | rfl) | rfl) | rfl <;> exact absurd h (by decide)

/-- A word ends where no character goes on with it. -/
theorem scans_word {x : String} (hx : isIdentifier x = true) (hapart : Apart cs)
    (h : Scans cs ts) : Scans (x.toList ++ cs) (ofWord x.toList :: ts) := by
  intro found offset
  unfold isIdentifier at hx
  split at hx
  · cases hx
  · next c word hword =>
      rw [Bool.and_eq_true, List.all_eq_true] at hx
      rcases hx with ⟨hopens, hcontinues⟩
      have hblank := isBlank_of_opens hopens
      have hslash : c ≠ '/' := by
        rintro rfl
        exact absurd hopens (by decide)
      -- the scanner takes exactly the word, since what follows does not go on with it
      rcases Text.span_append hcontinues hapart with ⟨htake, hdrop⟩
      rw [hword, List.cons_append, scanFrom_cons (Or.inl hslash)]
      simp only [hblank, hopens, htake, hdrop, Bool.false_eq_true, if_false, if_true]
      rcases h (⟨ofWord (c :: word), offset, offset + byteCount (c :: word)⟩ :: found)
        (offset + byteCount (c :: word)) with ⟨ls, hscan, hls⟩
      refine ⟨⟨ofWord (c :: word), offset, offset + byteCount (c :: word)⟩ :: ls, ?_, ?_⟩
      · rw [hscan]
        simp
      · rw [← hls]
        rfl

end Scans

end Token

end StraightLine
