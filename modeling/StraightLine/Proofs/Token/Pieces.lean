import StraightLine.Proofs.Token.Lexer

/-!
# Pieces — how a text falls into blanks, comments and tokens

The scanner cuts a text into pieces. Each piece ends for a reason that lies in the text behind it: a
comment at the end of its line, a word where it does not go on, a slash before anything that is not
a second slash.

* `Token.Occurrence`, `Token.occurrences` — the characters of a text with the bytes they start at;
* `Token.uncommented` — the characters that are in no comment;
* `Token.Taken` — a token and the text that may follow it;
* `Token.Reads` — the front of a text as pieces, with the characters and the lexemes it leaves;
* `Token.cuts_scanFrom` — every scan reads pieces up to the end or to a stray character;
* `Token.Reads.uncommented_append`, `Token.Reads.filter_kept` — what the pieces leave of the text;
* `Token.Reads.stands` — where each lexeme stands.
-/

namespace StraightLine

namespace Token

/-! ## Characters -/

/-- The signs that are no operators. -/
def punctuation : List Char :=
  ['(', ')', '{', '}', ',', ';', '=']

theorem isSome_ofSign? (c : Char) :
    (ofSign? c).isSome = true ↔ c ∈ punctuation ∨ c ∈ operatorSigns := by
  unfold ofSign?
  split
  case h_8 hleft hright hopen hclose hcomma hsemicolon hassign =>
    have hnot : c ∉ punctuation := by
      simp only [punctuation, List.mem_cons, List.not_mem_nil, or_false, not_or]
      exact ⟨hleft, hright, hopen, hclose, hcomma, hsemicolon, hassign⟩
    by_cases hsign : c ∈ operatorSigns
    · simp [hsign]
    · simp [hsign, hnot]
  all_goals simp [punctuation]

/-- Letters come after the digits. -/
theorem isDigit_eq_false_of_isAlpha {c : Char} (h : c.isAlpha = true) : c.isDigit = false := by
  have hcode : 'A'.toNat ≤ c.toNat := by
    rcases Bool.or_eq_true_iff.1 h with hupper | hlower
    · exact (of_decide_eq_true hupper).1
    · have hle : 'a'.toNat ≤ c.toNat := of_decide_eq_true (Bool.and_eq_true_iff.1 hlower).1
      exact Nat.le_trans (by decide) hle
  by_contra hdigit
  rw [Bool.not_eq_false, Char.isDigit_iff_toNat] at hdigit
  exact absurd (Nat.le_trans hcode hdigit.2) (by decide)

theorem opens_iff (c : Char) :
    Identifier.opens c = true ↔ Identifier.continues c = true ∧ c.isDigit = false := by
  simp only [Identifier.opens, Identifier.continues, Char.isAlphanum, Bool.or_eq_true, beq_iff_eq]
  constructor
  · rintro (halpha | rfl)
    · exact ⟨Or.inl (Or.inl halpha), isDigit_eq_false_of_isAlpha halpha⟩
    · exact ⟨Or.inr rfl, rfl⟩
  · rintro ⟨(halpha | hdigit) | hlow, hnot⟩
    · exact Or.inl halpha
    · rw [hnot] at hdigit
      cases hdigit
    · exact Or.inr hlow

theorem not_continues_of_isBlank {c : Char} (h : isBlank c = true) :
    Identifier.continues c = false := by
  simp only [isBlank, Bool.or_eq_true, beq_iff_eq] at h
  rcases h with ((rfl | rfl) | rfl) | rfl <;> decide

theorem not_continues_of_ofSign? {c : Char} {t : Token} (h : ofSign? c = some t) :
    Identifier.continues c = false := by
  have hsigns : ((punctuation ++ operatorSigns).all fun c => !Identifier.continues c) = true := by
    decide
  have hmem := (isSome_ofSign? c).1 (by rw [h]; rfl)
  simpa using List.all_eq_true.1 hsigns c (List.mem_append.2 hmem)

/-! ## Bytes -/

theorem byteCount_eq_utf8ByteSize (cs : List Char) :
    byteCount cs = (String.ofList cs).utf8ByteSize := by
  -- the scanner counts from the left, so the count so far is any number
  have hfold : ∀ n,
      cs.foldl (fun n c => n + c.utf8Size) n = n + (String.ofList cs).utf8ByteSize := by
    induction cs with
    | nil =>
        intro n
        rfl
    | cons c cs ih =>
        intro n
        have hcons : String.ofList (c :: cs) = String.singleton c ++ String.ofList cs := by
          rw [String.singleton_eq_ofList, ← String.ofList_append]
          rfl
        rw [List.foldl_cons, ih, hcons, String.utf8ByteSize_append, String.utf8ByteSize_singleton]
        omega
  rw [byteCount, hfold, Nat.zero_add]

@[simp] theorem byteCount_nil : byteCount [] = 0 := rfl

theorem byteCount_append (a b : List Char) : byteCount (a ++ b) = byteCount a + byteCount b := by
  simp only [byteCount_eq_utf8ByteSize, String.ofList_append, String.utf8ByteSize_append]

theorem byteCount_singleton (c : Char) : byteCount [c] = c.utf8Size := by
  simp [byteCount]

theorem byteCount_cons (c : Char) (cs : List Char) :
    byteCount (c :: cs) = c.utf8Size + byteCount cs := by
  rw [← List.singleton_append, byteCount_append, byteCount_singleton]

theorem byteCount_pos {cs : List Char} (h : cs ≠ []) : 0 < byteCount cs := by
  cases cs with
  | nil => exact absurd rfl h
  | cons c cs =>
      rw [byteCount_cons]
      exact Nat.add_pos_left c.utf8Size_pos _

/-! ## Occurrences -/

/-- A character of a text and the byte it starts at. -/
structure Occurrence where
  offset : Nat
  char : Char
  deriving DecidableEq, Repr

/-- The characters of a text whose first byte is `offset`. -/
def occurrencesFrom (offset : Nat) : List Char → List Occurrence
  | [] => []
  | c :: cs => ⟨offset, c⟩ :: occurrencesFrom (offset + c.utf8Size) cs

def occurrences (source : String) : List Occurrence :=
  occurrencesFrom 0 source.toList

variable {offset : Nat} {c : Char} {cs text rest : List Char}

theorem occurrencesFrom_append (offset : Nat) (a b : List Char) :
    occurrencesFrom offset (a ++ b) =
      occurrencesFrom offset a ++ occurrencesFrom (offset + byteCount a) b := by
  induction a generalizing offset with
  | nil => rfl
  | cons c a ih =>
      rw [List.cons_append, occurrencesFrom, ih, occurrencesFrom, byteCount_cons, Nat.add_assoc,
        List.cons_append]

theorem map_char_occurrencesFrom (offset : Nat) (cs : List Char) :
    (occurrencesFrom offset cs).map Occurrence.char = cs := by
  induction cs generalizing offset with
  | nil => rfl
  | cons c cs ih => rw [occurrencesFrom, List.map_cons, ih]

theorem char_mem_of_mem_occurrencesFrom {p : Occurrence} (h : p ∈ occurrencesFrom offset cs) :
    p.char ∈ cs := by
  rw [← map_char_occurrencesFrom offset cs]
  exact List.mem_map_of_mem h

theorem bounds_of_mem_occurrencesFrom {p : Occurrence} (h : p ∈ occurrencesFrom offset cs) :
    offset ≤ p.offset ∧ p.offset + p.char.utf8Size ≤ offset + byteCount cs := by
  induction cs generalizing offset with
  | nil => cases h
  | cons c cs ih =>
      rw [byteCount_cons]
      rcases List.mem_cons.1 h with rfl | h
      · exact ⟨Nat.le_refl _, by simp only; omega⟩
      · have := ih h
        omega

/-- A character that starts behind the first part of a text is one of the second part. -/
theorem mem_back_of_le {a b : List Char} {p : Occurrence}
    (h : p ∈ occurrencesFrom offset (a ++ b)) (hstart : offset + byteCount a ≤ p.offset) :
    p ∈ occurrencesFrom (offset + byteCount a) b := by
  rw [occurrencesFrom_append, List.mem_append] at h
  rcases h with h | h
  · have := bounds_of_mem_occurrencesFrom h
    have := p.char.utf8Size_pos
    omega
  · exact h

/-- A character that starts before the second part of a text is one of the first part. -/
theorem mem_front_of_lt {a b : List Char} {p : Occurrence}
    (h : p ∈ occurrencesFrom offset (a ++ b)) (hstop : p.offset < offset + byteCount a) :
    p ∈ occurrencesFrom offset a := by
  rw [occurrencesFrom_append, List.mem_append] at h
  rcases h with h | h
  · exact h
  · have := bounds_of_mem_occurrencesFrom h
    omega

/-- The character at the first byte of a text is its first one. -/
theorem head?_of_mem_occurrencesFrom {p : Occurrence} (h : p ∈ occurrencesFrom offset cs)
    (hfirst : p.offset = offset) : cs.head? = some p.char := by
  cases cs with
  | nil => cases h
  | cons c cs =>
      rcases List.mem_cons.1 h with rfl | h
      · rfl
      · have := bounds_of_mem_occurrencesFrom h
        have := c.utf8Size_pos
        omega

/-! ## Comments -/

/-- The characters in no comment. Two slashes open a comment; the line feed behind it is not part
of it. -/
def uncommentedFrom : (inComment : Bool) → List Occurrence → List Occurrence
  | _, [] => []
  | true, p :: ps =>
      if p.char = '\n' then p :: uncommentedFrom false ps else uncommentedFrom true ps
  | false, p :: ps =>
      if p.char = '/' ∧ ps.head?.map Occurrence.char = some '/' then uncommentedFrom true ps
      else p :: uncommentedFrom false ps

def uncommented (source : String) : List Occurrence :=
  uncommentedFrom false (occurrences source)

theorem head?_occurrencesFrom (offset : Nat) (cs : List Char) :
    (occurrencesFrom offset cs).head?.map Occurrence.char = cs.head? := by
  rw [← List.head?_map, map_char_occurrencesFrom]

theorem uncommentedFrom_cons (h : c ≠ '/' ∨ cs.head? ≠ some '/') (offset : Nat) :
    uncommentedFrom false (occurrencesFrom offset (c :: cs)) =
      ⟨offset, c⟩ :: uncommentedFrom false (occurrencesFrom (offset + c.utf8Size) cs) := by
  rw [occurrencesFrom, uncommentedFrom, if_neg]
  rintro ⟨hc, hcs⟩
  rw [head?_occurrencesFrom] at hcs
  exact h.elim (fun h => h hc) (fun h => h hcs)

/-- Characters other than slashes open no comment. -/
theorem uncommentedFrom_append (h : '/' ∉ cs) (offset : Nat) (rest : List Char) :
    uncommentedFrom false (occurrencesFrom offset (cs ++ rest)) =
      occurrencesFrom offset cs ++
        uncommentedFrom false (occurrencesFrom (offset + byteCount cs) rest) := by
  induction cs generalizing offset with
  | nil => rfl
  | cons c cs ih =>
      rw [List.mem_cons, not_or] at h
      rw [List.cons_append, uncommentedFrom_cons (Or.inl (Ne.symm h.1)), ih h.2, occurrencesFrom,
        byteCount_cons, Nat.add_assoc, List.cons_append]

/-- Within a comment nothing is left up to the end of the line. -/
theorem uncommentedFrom_comment (h : '\n' ∉ cs) (hrest : ∀ d ∈ rest.head?, d = '\n')
    (offset : Nat) :
    uncommentedFrom true (occurrencesFrom offset (cs ++ rest)) =
      uncommentedFrom false (occurrencesFrom (offset + byteCount cs) rest) := by
  induction cs generalizing offset with
  | nil =>
      cases rest with
      | nil => rfl
      | cons d rest =>
          have hd : d = '\n' := hrest d rfl
          have hslash : d ≠ '/' := by
            rw [hd]
            decide
          rw [List.nil_append, byteCount_nil, Nat.add_zero, uncommentedFrom_cons (Or.inl hslash),
            occurrencesFrom, uncommentedFrom, if_pos hd]
  | cons c cs ih =>
      rw [List.mem_cons, not_or] at h
      rw [List.cons_append, occurrencesFrom, uncommentedFrom, if_neg (Ne.symm h.1), ih h.2,
        byteCount_cons, Nat.add_assoc]

/-- The first character that is left behind a comment ends its line. -/
theorem head?_uncommentedFrom_comment (ps : List Occurrence) :
    ∀ p ∈ (uncommentedFrom true ps).head?, p.char = '\n' := by
  induction ps with
  | nil => simp [uncommentedFrom]
  | cons q ps ih =>
      rw [uncommentedFrom]
      split
      · next hq =>
          simpa using hq
      · exact ih

/-- No word goes on across a comment. -/
theorem apart_uncommentedFrom (h : Apart cs) (offset : Nat) :
    Apart ((uncommentedFrom false (occurrencesFrom offset cs)).map Occurrence.char) := by
  cases cs with
  | nil => exact h
  | cons c cs =>
      rw [occurrencesFrom, uncommentedFrom]
      split
      · -- the text starts with a comment, so what is left starts with a line feed
        intro d hd
        rw [List.head?_map, Option.mem_def, Option.map_eq_some_iff] at hd
        rcases hd with ⟨p, hp, rfl⟩
        rw [head?_uncommentedFrom_comment _ p hp]
        decide
      · exact apart_cons (h c rfl) _

/-! ## Tokens -/

/-- A token that is read where `rest` follows: a word does not go on, and a slash stays alone. -/
inductive Taken (rest : List Char) : Token → Prop where
  | word {c : Char} {run : List Char} (opens : Identifier.opens c = true)
      (continues : ∀ d ∈ run, Identifier.continues d = true) (apart : Apart rest) :
      Taken rest (ofWord (c :: run))
  | sign {c : Char} {t : Token} (sign : ofSign? c = some t)
      (alone : c ≠ '/' ∨ rest.head? ≠ some '/') : Taken rest t

namespace Taken

variable {t : Token}

theorem chars_ne_nil (h : Taken rest t) : t.chars ≠ [] := by
  cases h with
  | word _ _ _ => simp [chars_ofWord]
  | sign hsign _ => simp [chars_of_ofSign? hsign]

theorem not_isBlank (h : Taken rest t) : ∀ d ∈ t.chars, isBlank d = false := by
  cases h with
  | @word c run hopens hcontinues _ =>
      have hword : ∀ d ∈ c :: run, Identifier.continues d = true :=
        List.forall_mem_cons.2 ⟨Identifier.continues_of_opens hopens, hcontinues⟩
      intro d hd
      rw [chars_ofWord] at hd
      by_contra hblank
      have hcontinues := hword d hd
      rw [not_continues_of_isBlank (Bool.not_eq_false _ ▸ hblank)] at hcontinues
      cases hcontinues
  | sign hsign _ =>
      intro d hd
      rw [chars_of_ofSign? hsign, List.mem_singleton] at hd
      rw [hd]
      exact (plain_of_ofSign? hsign).1

/-- The characters of a token are in no comment. -/
theorem uncommented_append (h : Taken rest t) (offset : Nat) :
    uncommentedFrom false (occurrencesFrom offset (t.chars ++ rest)) =
      occurrencesFrom offset t.chars ++
        uncommentedFrom false (occurrencesFrom (offset + byteCount t.chars) rest) := by
  cases h with
  | @word c run hopens hcontinues _ =>
      -- a slash is not a character of a word
      apply uncommentedFrom_append
      rw [chars_ofWord, List.mem_cons, not_or]
      refine ⟨?_, fun hslash => ?_⟩
      · rintro rfl
        exact absurd hopens (by decide)
      · exact absurd (hcontinues _ hslash) (by decide)
  | @sign c t hsign halone =>
      rw [chars_of_ofSign? hsign, List.singleton_append, uncommentedFrom_cons halone,
        byteCount_singleton]
      rfl

/-- Behind a token with word characters no word goes on. -/
theorem apart {d : Char} (h : Taken rest t) (hd : d ∈ t.chars)
    (hword : Identifier.continues d = true) : Apart rest := by
  cases h with
  | word _ _ hapart => exact hapart
  | sign hsign _ =>
      rw [chars_of_ofSign? hsign, List.mem_singleton] at hd
      rw [hd, not_continues_of_ofSign? hsign] at hword
      cases hword

theorem head?_ne_slash (h : Taken rest (.op '/')) : rest.head? ≠ some '/' := by
  generalize ht : Token.op '/' = t at h
  cases h with
  | word _ _ _ =>
      -- a word is the keyword or a name, and no operator
      unfold ofWord at ht
      simp only at ht
      split at ht <;> cases ht
  | @sign c t hsign halone =>
      have hchars := chars_of_ofSign? hsign
      rw [← ht] at hchars
      cases hchars
      exact halone.resolve_left (fun h => h rfl)

theorem eq_returnWord_iff (h : Taken rest t) : t = .returnWord ↔ t.chars = keyword.toList := by
  constructor
  · rintro rfl
    rfl
  · intro hchars
    cases h with
    | word _ _ _ =>
        rw [chars_ofWord] at hchars
        rw [hchars, ofWord, String.ofList_toList]
        exact if_pos rfl
    | sign hsign _ =>
        -- a sign is a single character
        rw [chars_of_ofSign? hsign] at hchars
        cases hchars

end Taken

/-! ## Pieces -/

/-- The front `text` of a text, with `rest` behind it, as pieces: `kept` is what is left of it
without comments, `ls` are its lexemes. -/
inductive Reads : (offset : Nat) → (text rest : List Char) → (kept : List Occurrence) →
    (ls : List Lexeme) → Prop where
  | nil (offset : Nat) (rest : List Char) : Reads offset [] rest [] []
  | comment {offset : Nat} {body text rest : List Char} {kept : List Occurrence}
      {ls : List Lexeme} (line : '\n' ∉ body) (stops : ∀ d ∈ (text ++ rest).head?, d = '\n')
      (later : Reads (offset + byteCount ('/' :: '/' :: body)) text rest kept ls) :
      Reads offset ('/' :: '/' :: body ++ text) rest kept ls
  | blank {offset : Nat} {c : Char} {text rest : List Char} {kept : List Occurrence}
      {ls : List Lexeme} (blank : isBlank c = true)
      (later : Reads (offset + c.utf8Size) text rest kept ls) :
      Reads offset (c :: text) rest (⟨offset, c⟩ :: kept) ls
  | token {offset : Nat} {t : Token} {text rest : List Char} {kept : List Occurrence}
      {ls : List Lexeme} (taken : Taken (text ++ rest) t)
      (later : Reads (offset + byteCount t.chars) text rest kept ls) :
      Reads offset (t.chars ++ text) rest (occurrencesFrom offset t.chars ++ kept)
        (⟨t, offset, offset + byteCount t.chars⟩ :: ls)

/-- A character that starts no piece. -/
def Stray (c : Char) : Prop :=
  isBlank c = false ∧ Identifier.opens c = false ∧ ofSign? c = none

/-- The result of a scan that has read all but `rest`. -/
def outcome (ls : List Lexeme) (offset : Nat) : (rest : List Char) →
    Except StrayChar (List Lexeme)
  | [] => .ok ls
  | c :: _ => .error ⟨offset, c⟩

/-- The scan of `cs` has the result `result`, after pieces that end where no piece starts. -/
def Cuts (found : List Lexeme) (offset : Nat) (cs : List Char)
    (result : Except StrayChar (List Lexeme)) : Prop :=
  ∃ text rest kept ls, cs = text ++ rest ∧ Reads offset text rest kept ls ∧
    (∀ c ∈ rest.head?, Stray c) ∧
    result = outcome (found.reverse ++ ls) (offset + byteCount text) rest

namespace Cuts

variable {found : List Lexeme} {result : Except StrayChar (List Lexeme)}

theorem comment (hline : '\n' ∉ text) (hstops : ∀ d ∈ cs.head?, d = '\n')
    (h : Cuts found (offset + byteCount ('/' :: '/' :: text)) cs result) :
    Cuts found offset ('/' :: '/' :: text ++ cs) result := by
  rcases h with ⟨later, rest, kept, ls, rfl, hreads, hrest, rfl⟩
  refine ⟨_, rest, _, ls, (List.append_assoc _ _ _).symm, .comment hline hstops hreads, hrest, ?_⟩
  rw [byteCount_append _ later, Nat.add_assoc]

theorem blank (hblank : isBlank c = true) (h : Cuts found (offset + c.utf8Size) cs result) :
    Cuts found offset (c :: cs) result := by
  rcases h with ⟨later, rest, kept, ls, rfl, hreads, hrest, rfl⟩
  refine ⟨_, rest, _, ls, rfl, .blank hblank hreads, hrest, ?_⟩
  rw [byteCount_cons, Nat.add_assoc]

theorem token {t : Token} (htaken : Taken cs t) (hchars : t.chars = text)
    (h : Cuts (⟨t, offset, offset + byteCount text⟩ :: found) (offset + byteCount text) cs
      result) :
    Cuts found offset (text ++ cs) result := by
  subst hchars
  rcases h with ⟨later, rest, kept, ls, rfl, hreads, hrest, rfl⟩
  refine ⟨_, rest, _, _, (List.append_assoc _ _ _).symm, .token htaken hreads, hrest, ?_⟩
  rw [List.reverse_cons, List.append_assoc, List.singleton_append, byteCount_append, Nat.add_assoc]

end Cuts

theorem cuts_scanFrom (found : List Lexeme) (offset : Nat) (cs : List Char) :
    Cuts found offset cs (scanFrom found offset cs) := by
  have halone : ∀ {c : Char} {rest : List Char},
      (∀ later, c = '/' → rest = '/' :: later → False) → c ≠ '/' ∨ rest.head? ≠ some '/' := by
    intro c rest h
    by_contra hslashes
    push Not at hslashes
    rcases List.head?_eq_some_iff.1 hslashes.2 with ⟨later, hlater⟩
    exact h later hslashes.1 hlater
  -- one case for each way in which the scanner goes on or stops
  fun_induction scanFrom found offset cs with
  | case1 found offset =>
      exact ⟨[], [], [], [], rfl, .nil _ _, by simp, by simp [outcome]⟩
  | case2 found offset rest comment ih =>
      have hline : '\n' ∉ comment := by
        intro h
        exact absurd (List.all_eq_true.1 List.all_takeWhile _ h) (by decide)
      have hstops : ∀ d ∈ (rest.dropWhile staysInComment).head?, d = '\n' := by
        intro d hd
        simpa [staysInComment] using Text.stops_dropWhile staysInComment rest d hd
      -- a slash is one byte, so the two of them are the `2` of the scanner
      have hbytes : offset + 2 + byteCount comment =
          offset + byteCount ('/' :: '/' :: comment) := by
        rw [byteCount_cons, byteCount_cons, Nat.add_assoc, show '/'.utf8Size = 1 by decide]
        omega
      rw [hbytes] at ih ⊢
      have hcuts := Cuts.comment hline hstops ih
      rwa [List.cons_append, List.cons_append, List.takeWhile_append_dropWhile] at hcuts
  | case3 found offset c rest hslash hblank ih =>
      exact Cuts.blank hblank ih
  | case4 found offset c rest hslash hblank hopens word stop ih =>
      have htaken : Taken (rest.dropWhile Identifier.continues) (ofWord word) :=
        .word hopens (List.all_eq_true.1 List.all_takeWhile) (Text.stops_dropWhile _ _)
      have hcuts := Cuts.token htaken (chars_ofWord word) ih
      rwa [List.cons_append, List.takeWhile_append_dropWhile] at hcuts
  | case5 found offset c rest hslash hblank hopens t hsign stop ih =>
      have hstop : stop = offset + byteCount [c] := by rw [byteCount_singleton]
      rw [hstop] at ih ⊢
      exact Cuts.token (.sign hsign (halone hslash)) (chars_of_ofSign? hsign) ih
  | case6 found offset c rest hslash hblank hopens hsign =>
      refine ⟨[], c :: rest, [], [], rfl, .nil _ _, ?_, rfl⟩
      rintro d ⟨⟩
      exact ⟨by simpa using hblank, by simpa using hopens, hsign⟩

/-! ## What the pieces leave -/

namespace Reads

variable {kept : List Occurrence} {ls : List Lexeme}

theorem uncommented_append (h : Reads offset text rest kept ls) :
    uncommentedFrom false (occurrencesFrom offset (text ++ rest)) =
      kept ++ uncommentedFrom false (occurrencesFrom (offset + byteCount text) rest) := by
  induction h with
  | nil offset rest => rfl
  | @comment offset body text rest kept ls hline hstops _ ih =>
      -- the two slashes open the comment, and the line feed behind it is outside again
      have hopen : uncommentedFrom false
          (occurrencesFrom offset ('/' :: '/' :: body ++ (text ++ rest))) =
            uncommentedFrom true (occurrencesFrom (offset + '/'.utf8Size)
              ('/' :: (body ++ (text ++ rest)))) := by
        rfl
      have hslash : '\n' ∉ '/' :: body := by
        rw [List.mem_cons, not_or]
        exact ⟨by decide, hline⟩
      rw [List.append_assoc, hopen, ← List.cons_append, uncommentedFrom_comment hslash hstops,
        Nat.add_assoc, ← byteCount_cons, ih, byteCount_append, ← Nat.add_assoc]
  | @blank offset c text rest kept ls hblank _ ih =>
      have hslash : c ≠ '/' := by
        rintro rfl
        exact absurd hblank (by decide)
      rw [List.cons_append, uncommentedFrom_cons (Or.inl hslash), ih, byteCount_cons,
        Nat.add_assoc, List.cons_append]
  | token htaken _ ih =>
      rw [List.append_assoc, htaken.uncommented_append, ih, byteCount_append, Nat.add_assoc,
        List.append_assoc]

/-- What is left without comments and blanks are the characters of the lexemes. -/
theorem filter_kept (h : Reads offset text rest kept ls) :
    kept.filter (fun p => !isBlank p.char) =
      ls.flatMap fun l => occurrencesFrom l.start l.token.chars := by
  induction h with
  | nil offset rest => rfl
  | comment _ _ _ ih => exact ih
  | blank hblank _ ih =>
      rw [List.filter_cons_of_neg (by simp [hblank]), ih]
  | @token offset t text rest kept ls htaken _ ih =>
      have hkeep : ∀ p ∈ occurrencesFrom offset t.chars, (!isBlank p.char) = true := by
        intro p hp
        rw [htaken.not_isBlank _ (char_mem_of_mem_occurrencesFrom hp)]
        rfl
      rw [List.filter_append, List.filter_eq_self.2 hkeep, ih, List.flatMap_cons]

/-- Where a lexeme stands in the front `text` of a text, and why it ends there. -/
structure Stands (offset : Nat) (text rest : List Char) (l : Lexeme) (before after : List Char) :
    Prop where
  chars : text = before ++ l.token.chars ++ after
  start : l.start = offset + byteCount before
  stop : l.stop = l.start + byteCount l.token.chars
  taken : Taken (after ++ rest) l.token

theorem stands (h : Reads offset text rest kept ls) :
    ∀ l ∈ ls, ∃ before after, Stands offset text rest l before after := by
  -- what stands later in the text stands there with one more piece in front
  have hlater : ∀ {offset : Nat} {front text rest : List Char} {l : Lexeme},
      (∃ before after, Stands (offset + byteCount front) text rest l before after) →
        ∃ before after, Stands offset (front ++ text) rest l before after := by
    rintro offset front text rest l ⟨before, after, hstands⟩
    refine ⟨front ++ before, after, ?_, ?_, hstands.stop, hstands.taken⟩
    · rw [hstands.chars]
      simp only [List.append_assoc]
    · rw [hstands.start, byteCount_append, Nat.add_assoc]
  induction h with
  | nil offset rest => intro l hl; cases hl
  | comment _ _ _ ih => exact fun l hl => hlater (ih l hl)
  | blank _ _ ih =>
      intro l hl
      rw [← List.singleton_append]
      exact hlater (by rw [byteCount_singleton]; exact ih l hl)
  | @token offset t text rest kept ls htaken _ ih =>
      intro l hl
      rcases List.mem_cons.1 hl with rfl | hl
      · exact ⟨[], text, by simp, by simp, rfl, htaken⟩
      · exact hlater (ih l hl)

theorem pairwise (h : Reads offset text rest kept ls) :
    ls.Pairwise fun l m => l.stop ≤ m.start := by
  induction h with
  | nil offset rest => exact List.Pairwise.nil
  | comment _ _ _ ih => exact ih
  | blank _ _ ih => exact ih
  | token _ hlater ih =>
      refine List.Pairwise.cons (fun m hm => ?_) ih
      rcases hlater.stands m hm with ⟨before, after, hstands⟩
      rw [hstands.start]
      exact Nat.le_add_right _ _

end Reads

end Token

end StraightLine
