import StraightLine.Proofs.Text
import StraightLine.SExpr

/-!
# SExpr — reading back what is written

The pieces of an expression can be laid out in many ways, with blanks, line breaks and comments
between them. Every layout is cut into the pieces that it consists of, and a sequence of the pieces
of an expression puts it on the list that is open, so every layout is read as the same expressions.

* `SExpr.Word`, `SExpr.Quoted` — atoms that are read in one piece;
* `SExpr.Spelled`, `SExpr.Laid` — layouts of pieces; `SExpr.piecesFrom_of_laid`;
* `SExpr.Legible` — expressions over such atoms;
* `SExpr.flat` — the pieces of an expression; `SExpr.laid_textBefore`, `SExpr.foldl_flat`;
* `SExpr.readAll_of_laid` — the expressions of a layout;
* `SExpr.readAll_lines` — the expressions of a text with one on each line.
-/

namespace StraightLine

namespace SExpr

/-! ## Atoms -/

/-- Such a character starts no comment and no quotation, and does not end an atom. -/
def isBare (c : Char) : Bool :=
  staysInAtom c && c != ';' && c != '|' && c != '"'

/-- An atom without quotes. -/
def Word (text : List Char) : Prop :=
  text ≠ [] ∧ ∀ c ∈ text, isBare c = true

instance (text : List Char) : Decidable (Word text) :=
  decidable_of_iff (text ≠ [] ∧ text.all isBare = true) (and_congr_right fun _ => List.all_eq_true)

/-- A text between two quotes of one kind. -/
def Quoted (text : List Char) : Prop :=
  ∃ quote inner, (quote = '|' ∨ quote = '"') ∧ quote ∉ inner ∧ text = quote :: (inner ++ [quote])

/-- A bare atom can end before this text. -/
def Ends (later : List Char) : Prop :=
  ∀ c ∈ later.head?, staysInAtom c = false

theorem Word.stays {text : List Char} (h : Word text) : ∀ c ∈ text, staysInAtom c = true := by
  intro c hc
  have hbare := h.2 c hc
  simp only [isBare, Bool.and_eq_true] at hbare
  exact hbare.1.1.1

/-- No case of the cutting but the last one applies to a bare character. -/
theorem ne_of_isBare {c : Char} (h : isBare c = true) :
    c ≠ '(' ∧ c ≠ ')' ∧ c ≠ ';' ∧ Text.isBlank c = false ∧ ¬ (c = '|' ∨ c = '"') := by
  simp only [isBare, staysInAtom, Bool.and_eq_true, Bool.not_eq_true', bne_iff_ne] at h
  rcases h with ⟨⟨⟨⟨⟨hblank, hopening⟩, hclosing⟩, hcomment⟩, hbar⟩, hquote⟩
  exact ⟨hopening, hclosing, hcomment, hblank, not_or.2 ⟨hbar, hquote⟩⟩

theorem upToQuote_append {quote : Char} {inner : List Char} (h : quote ∉ inner)
    (later : List Char) :
    upToQuote quote (inner ++ quote :: later) = (inner ++ [quote], later) := by
  induction inner with
  | nil =>
      simp [upToQuote]
  | cons c inner ih =>
      rw [List.mem_cons, not_or] at h
      simp [upToQuote, Ne.symm h.1, ih h.2]

/-! ## Layouts -/

/-- The characters of a piece, given those behind them: a bare atom ends before a blank, before a
parenthesis or with the text, so that nothing else is taken for a part of it. -/
inductive Spelled : Piece → List Char → List Char → Prop where
  | opening {later : List Char} : Spelled .opening ['('] later
  | closing {later : List Char} : Spelled .closing [')'] later
  | word {text later : List Char} (htext : Word text) (hlater : Ends later) :
      Spelled (.atom text) text later
  | quoted {text later : List Char} (htext : Quoted text) : Spelled (.atom text) text later

/-- A text in which pieces stand in order, with blanks and comments anywhere between them. A comment
ends before a line break or with the text. -/
inductive Laid : List Piece → List Char → Prop where
  | done : Laid [] []
  | blank {ps : List Piece} {later : List Char} (c : Char) (hc : Text.isBlank c = true)
      (h : Laid ps later) : Laid ps (c :: later)
  | comment {ps : List Piece} {later : List Char} (note : List Char) (hnote : '\n' ∉ note)
      (hlater : ∀ c ∈ later.head?, c = '\n') (h : Laid ps later) : Laid ps (';' :: (note ++ later))
  | piece {p : Piece} {ps : List Piece} {text later : List Char} (hp : Spelled p text later)
      (h : Laid ps later) : Laid (p :: ps) (text ++ later)

section Pieces

variable {found : List Piece} {p : Piece} {text later : List Char}

theorem ne_of_isBlank {c : Char} (h : Text.isBlank c = true) : c ≠ '(' ∧ c ≠ ')' ∧ c ≠ ';' := by
  refine ⟨?_, ?_, ?_⟩ <;> rintro rfl <;> exact absurd h (by decide)

theorem piecesFrom_blank {c : Char} (h : Text.isBlank c = true) :
    piecesFrom found (c :: later) = piecesFrom found later := by
  rw [piecesFrom]
  simp [ne_of_isBlank h, h]

theorem piecesFrom_comment {note : List Char} (hnote : '\n' ∉ note)
    (hlater : ∀ c ∈ later.head?, c = '\n') :
    piecesFrom found (';' :: (note ++ later)) = piecesFrom found later := by
  have hrun : ∀ d ∈ note, (d != '\n') = true := by
    intro d hd
    exact bne_iff_ne.2 fun h => hnote (h ▸ hd)
  have hstop : ∀ d ∈ later.head?, (d != '\n') = false := by
    intro d hd
    simp [hlater d hd]
  rw [piecesFrom, (Text.span_append hrun hstop).2]
  simp

theorem piecesFrom_word (h : Word text) (hlater : Ends later) :
    piecesFrom found (text ++ later) = piecesFrom (.atom text :: found) later := by
  cases text with
  | nil =>
      exact absurd rfl h.1
  | cons c text =>
      rcases ne_of_isBare (h.2 c List.mem_cons_self) with
        ⟨hopening, hclosing, hcomment, hblank, hquote⟩
      have hstays : ∀ d ∈ text, staysInAtom d = true :=
        fun d hd => h.stays d (List.mem_cons_of_mem _ hd)
      rcases Text.span_append hstays hlater with ⟨htake, hdrop⟩
      rw [List.cons_append, piecesFrom, htake, hdrop]
      simp only [hopening, hclosing, hcomment, hblank, hquote, if_false, Bool.false_eq_true]

theorem piecesFrom_quoted (h : Quoted text) :
    piecesFrom found (text ++ later) = piecesFrom (.atom text :: found) later := by
  rcases h with ⟨quote, inner, hquote, hinner, rfl⟩
  have hsplit := upToQuote_append hinner later
  rcases hquote with rfl | rfl
  · rw [List.cons_append, piecesFrom]
    have hblank : Text.isBlank '|' = false := by decide
    simp [hblank, hsplit]
  · rw [List.cons_append, piecesFrom]
    have hblank : Text.isBlank '"' = false := by decide
    simp [hblank, hsplit]

theorem piecesFrom_spelled (h : Spelled p text later) :
    piecesFrom found (text ++ later) = piecesFrom (p :: found) later := by
  cases h with
  | opening =>
      rw [List.singleton_append, piecesFrom]
      simp
  | closing =>
      rw [List.singleton_append, piecesFrom]
      simp
  | word htext hlater =>
      exact piecesFrom_word htext hlater
  | quoted htext =>
      exact piecesFrom_quoted htext

/-- A layout is cut into its pieces. -/
theorem piecesFrom_of_laid {ps : List Piece} (h : Laid ps text) (found : List Piece) :
    piecesFrom found text = found.reverse ++ ps := by
  induction h generalizing found with
  | done =>
      simp [piecesFrom]
  | blank c hc _ ih =>
      rw [piecesFrom_blank hc, ih]
  | comment note hnote hlater _ ih =>
      rw [piecesFrom_comment hnote hlater, ih]
  | piece hp _ ih =>
      rw [piecesFrom_spelled hp, ih, List.reverse_cons, List.append_assoc, List.singleton_append]

end Pieces

/-! ## Expressions -/

mutual

/-- Every atom is read in one piece. -/
def Legible : SExpr → Prop
  | atom text => Word text ∨ Quoted text
  | list items => AllLegible items

def AllLegible : List SExpr → Prop
  | [] => True
  | item :: rest => item.Legible ∧ AllLegible rest

end

mutual

/-- The pieces of an expression, in order. -/
def flat : SExpr → List Piece
  | atom text => [.atom text]
  | list items => .opening :: (flatAll items ++ [.closing])

def flatAll : List SExpr → List Piece
  | [] => []
  | item :: rest => item.flat ++ flatAll rest

end

theorem allLegible_iff {items : List SExpr} : AllLegible items ↔ ∀ e ∈ items, e.Legible := by
  induction items with
  | nil =>
      simp [AllLegible]
  | cons item rest ih =>
      simp [AllLegible, ih]

theorem ends_closing (later : List Char) : Ends (')' :: later) := by
  intro c hc
  cases hc
  decide

theorem ends_blank {b : Char} (h : Text.isBlank b = true) (later : List Char) :
    Ends (b :: later) := by
  intro c hc
  cases hc
  simp [staysInAtom, h]

theorem itemsBefore_cons_cons (later : List Char) (item next : SExpr) (rest : List SExpr) :
    itemsBefore later (item :: next :: rest) =
      item.textBefore (' ' :: itemsBefore later (next :: rest)) := by
  rw [itemsBefore]
  simp

mutual

/-- A written expression is a layout of its pieces, whatever layout stands behind it. -/
theorem laid_textBefore {ps : List Piece} : ∀ {e : SExpr} {later : List Char}, e.Legible →
    Ends later → Laid ps later → Laid (e.flat ++ ps) (e.textBefore later)
  | .atom text, later, h, hlater, hps => by
      rw [textBefore]
      rcases h with hword | hquoted
      · exact .piece (.word hword hlater) hps
      · exact .piece (.quoted hquoted) hps
  | .list items, later, h, _, hps => by
      rw [textBefore, flat, List.cons_append, List.append_assoc]
      exact .piece .opening (laid_itemsBefore h (ends_closing later) (.piece .closing hps))

theorem laid_itemsBefore {ps : List Piece} : ∀ {items : List SExpr} {later : List Char},
    AllLegible items → Ends later → Laid ps later →
      Laid (flatAll items ++ ps) (itemsBefore later items)
  | [], later, _, _, hps => by
      rw [itemsBefore]
      exact hps
  | [item], later, h, hlater, hps => by
      rw [itemsBefore, flatAll, flatAll, List.append_nil]
      exact laid_textBefore h.1 hlater hps
  | item :: next :: rest, later, h, hlater, hps => by
      have hblank : Text.isBlank ' ' = true := by decide
      rw [itemsBefore_cons_cons, flatAll, List.append_assoc]
      exact laid_textBefore h.1 (ends_blank hblank _)
        (.blank ' ' hblank (laid_itemsBefore h.2 hlater hps))

end

mutual

/-- The pieces of an expression put it on the list that is open. -/
theorem foldl_flat : ∀ (e : SExpr) (o : Open),
    e.flat.foldl Open.step o = { o with items := e :: o.items }
  | .atom text, o => by
      rfl
  | .list items, o => by
      rw [flat, List.foldl_cons, List.foldl_append, foldl_flatAll]
      simp [Open.step]

theorem foldl_flatAll : ∀ (items : List SExpr) (o : Open),
    (flatAll items).foldl Open.step o = { o with items := items.reverse ++ o.items }
  | [], o => by
      rfl
  | item :: rest, o => by
      rw [flatAll, List.foldl_append, foldl_flat, foldl_flatAll]
      simp

end

/-- A layout of expressions is read as these expressions. -/
theorem readAll_of_laid {es : List SExpr} {text : List Char} (h : Laid (flatAll es) text) :
    readAll text = es := by
  rw [readAll, pieces, piecesFrom_of_laid h, List.reverse_nil, List.nil_append, ofPieces,
    foldl_flatAll]
  simp [Open.outermost]

/-! ## Texts -/

mutual

theorem textBefore_eq_append : ∀ (e : SExpr) (later : List Char),
    e.textBefore later = e.text ++ later
  | .atom word, later => by
      simp [text, textBefore]
  | .list items, later => by
      rw [text, textBefore, textBefore, itemsBefore_eq_append, itemsBefore_eq_append items [')']]
      simp

theorem itemsBefore_eq_append : ∀ (items : List SExpr) (later : List Char),
    itemsBefore later items = itemsBefore [] items ++ later
  | [], later => by
      rfl
  | [item], later => by
      rw [itemsBefore, itemsBefore, textBefore_eq_append, textBefore_eq_append item []]
      simp
  | item :: next :: rest, later => by
      have hrest := itemsBefore_eq_append (next :: rest) later
      rw [itemsBefore_cons_cons, itemsBefore_cons_cons, textBefore_eq_append, hrest,
        textBefore_eq_append item (' ' :: itemsBefore [] (next :: rest))]
      simp

end

/-- One expression on each line. -/
def lines (es : List SExpr) : List Char :=
  es.flatMap fun e => e.text ++ ['\n']

theorem laid_lines {es : List SExpr} (h : ∀ e ∈ es, e.Legible) : Laid (flatAll es) (lines es) := by
  induction es with
  | nil =>
      exact .done
  | cons e rest ih =>
      have hblank : Text.isBlank '\n' = true := by decide
      have hline : lines (e :: rest) = e.textBefore ('\n' :: lines rest) := by
        simp [lines, textBefore_eq_append e ('\n' :: _)]
      rw [hline, flatAll]
      exact laid_textBefore (h e List.mem_cons_self) (ends_blank hblank _)
        (.blank '\n' hblank (ih fun e' he' => h e' (List.mem_cons_of_mem _ he')))

/-- Expressions on lines of their own are read back. -/
theorem readAll_lines {es : List SExpr} (h : ∀ e ∈ es, e.Legible) : readAll (lines es) = es :=
  readAll_of_laid (laid_lines h)

end SExpr

end StraightLine
