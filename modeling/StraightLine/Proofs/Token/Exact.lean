import StraightLine.Proofs.Token.Pieces

/-!
# Exact — which texts are scanned, and where their tokens stand

A text is scanned if every character outside of comments is a blank, a sign or part of a word. Its
tokens then cover exactly the characters that are neither blanks nor in a comment, words are never
cut, and what each token covers is what it is written with.

* `Token.Admitted` — what a character may be, seen from the text around it;
* `Token.Tokenization` — what the lexemes of a text have to do with it;
* `Token.FirstRefused` — the first character that is not admitted;
* `Token.scan_exact` — the scanner succeeds on the admitted texts, with such lexemes, and otherwise
  stops at the first refused character.
-/

namespace StraightLine

/-- The byte `offset` of the source belongs to the lexeme. -/
def Lexeme.Covers (l : Lexeme) (offset : Nat) : Prop :=
  l.start ≤ offset ∧ offset < l.stop

namespace Token

/-! ## Admitted characters -/

/-- Between `front` and `back`, `run` is a longest run of letters, digits and `_`, and it does not
start with a digit. -/
structure IsWord (front run back : List Occurrence) : Prop where
  continues : ∀ p ∈ run, Identifier.continues p.char = true
  opens : ∀ p ∈ run.head?, p.char.isDigit = false
  starts : ∀ p ∈ front.getLast?, Identifier.continues p.char = false
  stops : ∀ p ∈ back.head?, Identifier.continues p.char = false

/-- Between `before` and `after`, the character belongs to a word. -/
def InWord (before : List Occurrence) (p : Occurrence) (after : List Occurrence) : Prop :=
  ∃ front head tail back, before = front ++ head ∧ after = tail ++ back ∧
    IsWord front (head ++ p :: tail) back

def Admitted (before : List Occurrence) (p : Occurrence) (after : List Occurrence) : Prop :=
  isBlank p.char = true ∨ p.char ∈ punctuation ∨ p.char ∈ operatorSigns ∨ InWord before p after

/-- Every character of the middle part of a text is admitted where it stands. -/
def AllAdmitted (front text back : List Occurrence) : Prop :=
  ∀ before p after, text = before ++ p :: after → Admitted (front ++ before) p (after ++ back)

/-- The first character outside of comments that is not admitted. -/
def FirstRefused (source : String) (p : Occurrence) : Prop :=
  ∃ before after, uncommented source = before ++ p :: after ∧
    AllAdmitted [] before (p :: after) ∧ ¬ Admitted before p after

section Admitted

variable {front text back : List Occurrence} {p : Occurrence}

theorem AllAdmitted.nil (front back : List Occurrence) : AllAdmitted front [] back := by
  intro before p after h
  exact absurd h.symm (by simp)

theorem AllAdmitted.append {a b : List Occurrence} (ha : AllAdmitted front a (b ++ back))
    (hb : AllAdmitted (front ++ a) b back) : AllAdmitted front (a ++ b) back := by
  intro before p after h
  rcases List.append_eq_append_iff.1 h with ⟨rest, rfl, hrest⟩ | ⟨rest, rfl, hrest⟩
  · rw [← List.append_assoc]
    exact hb rest p after hrest
  · cases rest with
    | nil =>
        have hp := hb [] p after hrest.symm
        simpa using hp
    | cons q rest =>
        rw [List.cons_append, List.cons.injEq] at hrest
        rcases hrest with ⟨rfl, hrest⟩
        have hp := ha before p rest rfl
        rwa [← List.append_assoc, ← hrest] at hp

theorem AllAdmitted.singleton (h : Admitted front p back) : AllAdmitted front [p] back := by
  intro before q after heq
  rcases List.append_eq_singleton_iff.1 heq.symm with ⟨rfl, hq⟩ | ⟨_, hq⟩
  · cases hq
    simpa using h
  · cases hq

theorem IsWord.allAdmitted (h : IsWord front text back) : AllAdmitted front text back := by
  rintro before p after rfl
  exact Or.inr (Or.inr (Or.inr ⟨front, before, after, back, rfl, rfl, h⟩))

end Admitted

/-! ## What is read is admitted -/

/-- No word reaches from `front` into `cs`. -/
def Edge (front : List Occurrence) (cs : List Char) : Prop :=
  (∀ p ∈ front.getLast?, Identifier.continues p.char = false) ∨ Apart cs

theorem edge_append_singleton {p : Occurrence} (h : Identifier.continues p.char = false)
    (front : List Occurrence) (cs : List Char) : Edge (front ++ [p]) cs := by
  refine Or.inl fun q hq => ?_
  rw [List.getLast?_concat] at hq
  cases hq
  exact h

/-- A stray character is in no word: nothing goes on with it, and it opens none. -/
theorem not_admitted_of_stray {before after : List Occurrence} {p : Occurrence} {cs : List Char}
    (hstray : Stray p.char) (hedge : Edge before (p.char :: cs)) : ¬ Admitted before p after := by
  rcases hstray with ⟨hblank, hopens, hsign⟩
  rintro (h | h | h | ⟨front, head, tail, back, rfl, rfl, hword⟩)
  · rw [h] at hblank
    cases hblank
  · have := (isSome_ofSign? p.char).2 (Or.inl h)
    rw [hsign] at this
    cases this
  · have := (isSome_ofSign? p.char).2 (Or.inr h)
    rw [hsign] at this
    cases this
  · have hcontinues : Identifier.continues p.char = true := hword.continues p (by simp)
    -- the characters of the word before the stray one would reach over the edge
    have hhead : head = [] := by
      rcases List.eq_nil_or_concat head with rfl | ⟨head, q, rfl⟩
      · rfl
      · rcases hedge with hfront | hapart
        · have hq := hfront q (by simp)
          rw [hword.continues q (by simp)] at hq
          cases hq
        · rw [hapart p.char rfl] at hcontinues
          cases hcontinues
    subst hhead
    rw [(opens_iff p.char).2 ⟨hcontinues, hword.opens p rfl⟩] at hopens
    cases hopens

theorem Taken.allAdmitted {front : List Occurrence} {rest : List Char} {t : Token}
    (h : Taken rest t) (offset : Nat) (hedge : Edge front (t.chars ++ rest)) :
    AllAdmitted front (occurrencesFrom offset t.chars)
        (uncommentedFrom false (occurrencesFrom (offset + byteCount t.chars) rest)) ∧
      Edge (front ++ occurrencesFrom offset t.chars) rest := by
  cases h with
  | @word c run hopens hcontinues hapart =>
      have hword : ∀ d ∈ c :: run, Identifier.continues d = true :=
        List.forall_mem_cons.2 ⟨Identifier.continues_of_opens hopens, hcontinues⟩
      rw [chars_ofWord] at hedge ⊢
      refine ⟨IsWord.allAdmitted ⟨?_, ?_, ?_, ?_⟩, Or.inr hapart⟩
      · exact fun p hp => hword p.char (char_mem_of_mem_occurrencesFrom hp)
      · rintro p ⟨⟩
        exact ((opens_iff c).1 hopens).2
      · -- the word would go on what stands before it
        rcases hedge with hfront | hapart
        · exact hfront
        · have := hapart c rfl
          rw [Identifier.continues_of_opens hopens] at this
          cases this
      · intro p hp
        have hhead := apart_uncommentedFrom hapart (offset + byteCount (c :: run))
        exact hhead p.char (by rw [List.head?_map, Option.mem_def.1 hp]; rfl)
  | @sign c t hsign _ =>
      have hsigns : c ∈ punctuation ∨ c ∈ operatorSigns := by
        rw [← isSome_ofSign?, hsign]
        rfl
      rw [chars_of_ofSign? hsign]
      exact ⟨.singleton (Or.inr (or_assoc.1 (Or.inl hsigns))),
        edge_append_singleton (not_continues_of_ofSign? hsign) front rest⟩

theorem Reads.allAdmitted {offset : Nat} {text rest : List Char} {kept : List Occurrence}
    {ls : List Lexeme} (h : Reads offset text rest kept ls) (front : List Occurrence)
    (hedge : Edge front (text ++ rest)) :
    AllAdmitted front kept
        (uncommentedFrom false (occurrencesFrom (offset + byteCount text) rest)) ∧
      Edge (front ++ kept) rest := by
  induction h generalizing front with
  | nil offset rest =>
      exact ⟨.nil _ _, by simpa using hedge⟩
  | comment _ hstops _ ih =>
      -- a comment leaves nothing, and a line feed follows it
      have hapart : Edge front _ := Or.inr fun d hd => by
        rw [hstops d hd]
        decide
      rw [byteCount_append, ← Nat.add_assoc]
      exact ih front hapart
  | @blank offset c text rest kept ls hblank _ ih =>
      have hword := not_continues_of_isBlank hblank
      rcases ih (front ++ [⟨offset, c⟩]) (edge_append_singleton hword front _) with ⟨hall, hend⟩
      rw [byteCount_cons, ← Nat.add_assoc]
      rw [← List.append_cons] at hend
      exact ⟨AllAdmitted.append (.singleton (Or.inl hblank)) hall, hend⟩
  | @token offset t text rest kept ls htaken hlater ih =>
      rw [List.append_assoc] at hedge
      rcases htaken.allAdmitted offset hedge with ⟨hpiece, hedge⟩
      rcases ih _ hedge with ⟨hall, hend⟩
      rw [hlater.uncommented_append] at hpiece
      rw [byteCount_append, ← Nat.add_assoc, ← List.append_assoc]
      exact ⟨hpiece.append hall, hend⟩

/-! ## Where the tokens stand -/

/-- The bytes from `start` up to `stop` of the source are those of `text`. -/
def Slice (source : String) (start stop : Nat) (text : String) : Prop :=
  ∃ before after : String, source = before ++ text ++ after ∧ start = before.utf8ByteSize ∧
    stop = start + text.utf8ByteSize

/-- What the lexemes of a text have to do with it. -/
structure Tokenization (source : String) (ls : List Lexeme) : Prop where
  nonempty : ∀ l ∈ ls, l.start < l.stop
  ordered : ls.Pairwise fun l m => l.stop ≤ m.start
  slices : ∀ l ∈ ls, Slice source l.start l.stop (String.ofList l.token.chars)
  /-- The tokens leave out the blanks and the comments, and nothing else. -/
  covers : ∀ p ∈ occurrences source,
    (∃ l ∈ ls, l.Covers p.offset) ↔ p ∈ uncommented source ∧ isBlank p.char = false
  /-- Word characters side by side are never in different tokens. -/
  words : ∀ p ∈ occurrences source, ∀ q ∈ occurrences source,
    q.offset = p.offset + p.char.utf8Size → Identifier.continues p.char = true →
      Identifier.continues q.char = true → ∀ l ∈ ls, ∀ m ∈ ls, l.Covers p.offset →
        m.Covers q.offset → l = m
  keywords : ∀ l ∈ ls, l.token = .returnWord ↔ Slice source l.start l.stop keyword
  slashes : ∀ l ∈ ls, l.token = .op '/' → ⟨l.stop, '/'⟩ ∉ occurrences source

theorem append_inj_left_of_utf8ByteSize {s t s' t' : String} (h : s ++ t = s' ++ t')
    (hsize : s.utf8ByteSize = s'.utf8ByteSize) : s = s' := by
  have hbytes := congrArg String.toByteArray h
  rw [String.toByteArray_append, String.toByteArray_append] at hbytes
  exact String.toByteArray_inj.1 (ByteArray.append_inj_left hbytes hsize)

theorem Slice.unique {source : String} {start stop : Nat} {a b : String}
    (ha : Slice source start stop a) (hb : Slice source start stop b) : a = b := by
  rcases ha with ⟨before, after, rfl, rfl, rfl⟩
  rcases hb with ⟨before', after', hsource, hstart, hstop⟩
  have hbefore : before = before' := by
    rw [String.append_assoc, String.append_assoc] at hsource
    exact append_inj_left_of_utf8ByteSize hsource hstart
  subst hbefore
  have hfront : before ++ a = before ++ b := by
    apply append_inj_left_of_utf8ByteSize hsource
    rw [String.utf8ByteSize_append, String.utf8ByteSize_append, hstop]
  exact (String.append_right_inj before).1 hfront

/-- Lexemes that stand one after another have no byte in common. -/
theorem eq_of_covers {ls : List Lexeme} (hls : ls.Pairwise fun l m => l.stop ≤ m.start)
    {l m : Lexeme} (hl : l ∈ ls) (hm : m ∈ ls) {offset : Nat} (hlo : l.Covers offset)
    (hmo : m.Covers offset) : l = m := by
  rcases hlo with ⟨hlstart, hlstop⟩
  rcases hmo with ⟨hmstart, hmstop⟩
  induction hls with
  | nil => cases hl
  | @cons first ls hfirst _ ih =>
      rcases List.mem_cons.1 hl with hl | hl <;> rcases List.mem_cons.1 hm with hm | hm
      · rw [hl, hm]
      · have := hfirst m hm
        subst hl
        omega
      · have := hfirst l hl
        subst hm
        omega
      · exact ih hl hm

namespace Reads

section Stands

variable {offset : Nat} {text rest before after : List Char} {l : Lexeme} {p q : Occurrence}

theorem Stands.covers_iff (h : Stands offset text rest l before after)
    (hp : p ∈ occurrencesFrom offset text) :
    l.Covers p.offset ↔ p ∈ occurrencesFrom l.start l.token.chars := by
  have hstart := h.start
  have hstop := h.stop
  constructor
  · rintro ⟨hfirst, hlast⟩
    rw [h.chars] at hp
    have hfront := mem_front_of_lt hp (by rw [byteCount_append]; omega)
    rw [hstart]
    exact mem_back_of_le hfront (by omega)
  · intro hmem
    have := bounds_of_mem_occurrencesFrom hmem
    have := p.char.utf8Size_pos
    exact ⟨by omega, by omega⟩

/-- The character after the last byte of a lexeme. -/
theorem Stands.head?_after (h : Stands offset text rest l before after)
    (hp : p ∈ occurrencesFrom offset text) (hnext : p.offset = l.stop) :
    (after ++ rest).head? = some p.char := by
  have hstart := h.start
  have hstop := h.stop
  have hbytes : offset + byteCount (before ++ l.token.chars) = l.stop := by
    rw [byteCount_append]
    omega
  rw [h.chars] at hp
  have hafter := head?_of_mem_occurrencesFrom (mem_back_of_le hp (by omega)) (by omega)
  rw [List.head?_append, hafter, Option.some_or]

/-- A word goes on as far as word characters follow each other. -/
theorem Stands.covers_next (h : Stands offset text rest l before after)
    (hp : p ∈ occurrencesFrom offset text) (hq : q ∈ occurrencesFrom offset text)
    (hnext : q.offset = p.offset + p.char.utf8Size) (hpword : Identifier.continues p.char = true)
    (hqword : Identifier.continues q.char = true) (hl : l.Covers p.offset) :
    l.Covers q.offset := by
  have hmem := (h.covers_iff hp).1 hl
  have hbounds := bounds_of_mem_occurrencesFrom hmem
  have hstop := h.stop
  refine ⟨by omega, ?_⟩
  by_contra hend
  -- the token ends in a word character, so what follows is none
  have hchar := char_mem_of_mem_occurrencesFrom hmem
  have hapart := h.taken.apart hchar hpword q.char (h.head?_after hq (by omega))
  rw [hapart] at hqword
  cases hqword

theorem Stands.slice {source : String} (h : Stands 0 source.toList rest l before after) :
    Slice source l.start l.stop (String.ofList l.token.chars) := by
  refine ⟨String.ofList before, String.ofList after, ?_, ?_, ?_⟩
  · rw [← String.ofList_append, ← String.ofList_append, ← h.chars, String.ofList_toList]
  · rw [h.start, Nat.zero_add, byteCount_eq_utf8ByteSize]
  · rw [h.stop, byteCount_eq_utf8ByteSize]

end Stands

theorem uncommented_eq {source : String} {kept : List Occurrence} {ls : List Lexeme}
    (h : Reads 0 source.toList [] kept ls) : uncommented source = kept := by
  have hleft := h.uncommented_append
  rwa [List.append_nil, occurrencesFrom, uncommentedFrom, List.append_nil] at hleft

theorem tokenization {source : String} {kept : List Occurrence} {ls : List Lexeme}
    (h : Reads 0 source.toList [] kept ls) : Tokenization source ls := by
  refine ⟨?_, h.pairwise, ?_, ?_, ?_, ?_, ?_⟩
  · intro l hl
    rcases h.stands l hl with ⟨before, after, hstands⟩
    have := byteCount_pos hstands.taken.chars_ne_nil
    have := hstands.stop
    omega
  · intro l hl
    rcases h.stands l hl with ⟨before, after, hstands⟩
    exact hstands.slice
  · -- the characters of the tokens are what is left without comments and blanks
    intro p hp
    have hchars : p ∈ kept.filter (fun p => !isBlank p.char) ↔
        p ∈ uncommented source ∧ isBlank p.char = false := by
      rw [List.mem_filter, h.uncommented_eq, Bool.not_eq_true']
    rw [← hchars, h.filter_kept, List.mem_flatMap]
    refine exists_congr fun l => and_congr_right fun hl => ?_
    rcases h.stands l hl with ⟨before, after, hstands⟩
    exact hstands.covers_iff hp
  · -- the token of the first character goes on to the second
    intro p hp q hq hnext hpword hqword l hl m hm hlp hmq
    rcases h.stands l hl with ⟨before, after, hstands⟩
    exact eq_of_covers h.pairwise hl hm (hstands.covers_next hp hq hnext hpword hqword hlp) hmq
  · -- a slice determines its text
    intro l hl
    rcases h.stands l hl with ⟨before, after, hstands⟩
    rw [hstands.taken.eq_returnWord_iff]
    constructor
    · intro hchars
      have hslice := hstands.slice
      rwa [hchars, String.ofList_toList] at hslice
    · intro hslice
      rw [hslice.unique hstands.slice, String.toList_ofList]
  · intro l hl hslash hnext
    rcases h.stands l hl with ⟨before, after, hstands⟩
    have htaken := hstands.taken
    rw [hslash] at htaken
    exact htaken.head?_ne_slash (hstands.head?_after hnext rfl)

end Reads

/-! ## The scanner -/

theorem firstRefused_of_reads {source : String} {text after : List Char} {c : Char}
    {kept : List Occurrence} {ls : List Lexeme} (hsource : source.toList = text ++ c :: after)
    (h : Reads 0 text (c :: after) kept ls) (hstray : Stray c) :
    FirstRefused source ⟨byteCount text, c⟩ := by
  have hslash : c ≠ '/' := by
    rintro rfl
    exact absurd hstray.2.2 (by decide)
  have hleft := h.uncommented_append
  have hall := h.allAdmitted [] (Or.inl (by simp))
  rw [uncommentedFrom_cons (Or.inl hslash), Nat.zero_add] at hleft hall
  refine ⟨kept, _, ?_, hall.1, not_admitted_of_stray hstray hall.2⟩
  rw [uncommented, occurrences, hsource, hleft]

/-- The scanner succeeds exactly on the texts of admitted characters, and its lexemes are then the
tokens of the text. Otherwise it reports the first character that is not admitted. -/
theorem scan_exact (source : String) :
    ((∃ ls, scan source = .ok ls) ↔ AllAdmitted [] (uncommented source) []) ∧
      (∀ ls, scan source = .ok ls → Tokenization source ls) ∧
      ∀ stray, scan source = .error stray → FirstRefused source ⟨stray.offset, stray.char⟩ := by
  -- either all of the text falls into pieces, or a stray character follows them
  rcases cuts_scanFrom [] 0 source.toList with
    ⟨text, rest, kept, ls, hsource, hreads, hrest, hscan⟩
  cases rest with
  | nil =>
      rw [List.append_nil] at hsource
      subst hsource
      have hok : scan source = .ok ls := hscan
      have hall := (hreads.allAdmitted [] (Or.inl (by simp))).1
      rw [← hreads.uncommented_eq] at hall
      refine ⟨⟨fun _ => hall, fun _ => ⟨ls, hok⟩⟩, ?_, ?_⟩
      · intro ls' hls
        rw [hok] at hls
        cases hls
        exact hreads.tokenization
      · intro stray hstray
        rw [hok] at hstray
        cases hstray
  | cons c after =>
      have herror : scan source = .error ⟨byteCount text, c⟩ := by
        rw [scan, hscan, Nat.zero_add]
        rfl
      have hrefused := firstRefused_of_reads hsource hreads (hrest c rfl)
      refine ⟨⟨?_, ?_⟩, ?_, ?_⟩
      · rintro ⟨ls, hls⟩
        rw [herror] at hls
        cases hls
      · intro hall
        rcases hrefused with ⟨before, later, hleft, _, hnot⟩
        have hadmitted := hall before _ later hleft
        rw [List.nil_append, List.append_nil] at hadmitted
        exact absurd hadmitted hnot
      · intro ls hls
        rw [herror] at hls
        cases hls
      · intro stray hstray
        rw [herror] at hstray
        cases hstray
        exact hrefused

/-- A word that starts like the keyword, and a comment with a character of two bytes. -/
theorem scan_exact_sample :
    Tokenization "x=returns/y;//né\nreturn x"
        [⟨.ident "x", 0, 1⟩, ⟨.assign, 1, 2⟩, ⟨.ident "returns", 2, 9⟩, ⟨.op '/', 9, 10⟩,
          ⟨.ident "y", 10, 11⟩, ⟨.semicolon, 11, 12⟩, ⟨.returnWord, 18, 24⟩,
          ⟨.ident "x", 25, 26⟩] ∧
      FirstRefused "x//né\n9y" ⟨7, '9'⟩ :=
  ⟨(scan_exact _).2.1 _ (by decide +kernel), (scan_exact _).2.2 ⟨7, '9'⟩ (by decide +kernel)⟩

end Token

end StraightLine
