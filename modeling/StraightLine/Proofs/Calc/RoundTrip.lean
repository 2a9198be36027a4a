import StraightLine.Proofs.Calc.Parser
import StraightLine.Proofs.Printing
import StraightLine.Proofs.Token.Lexer

/-!
# RoundTrip — what is written is read back

The written form of a function is scanned into the tokens that its parts are made of, with the
keyword in the place of every name that is spelled like it. The parentheses among them stand where
the grammar requires them, so without such names the tokens are derived with the function itself.
They are never nested more deeply than the operators, so that the limit on heights is the only one
that matters.

* `Calc.exprTokens`, `Calc.functionTokens` — the tokens of the written form;
* `Calc.derives_exprTokens`, `Calc.nesting_exprTokens` — they are derived, and how deeply nested;
* `Calc.scanned`, `Calc.scans_function` — what the written form is scanned into;
* `Calc.parse_text` — the function is read back.
-/

namespace StraightLine

/-- A word that is read as an identifier. -/
def Token.IsName (x : String) : Prop :=
  isIdentifier x = true ∧ x ≠ keyword

instance (x : String) : Decidable (Token.IsName x) :=
  inferInstanceAs (Decidable (_ ∧ _))

/-- What a token is scanned into when it is written down: a name may turn out to be the keyword. -/
def Token.respelled : Token → Token
  | ident x => ofWord x.toList
  | t => t

theorem Token.ofWord_of_isName {x : String} (h : IsName x) : ofWord x.toList = ident x := by
  simp [ofWord, h.2]

namespace Calc

open Grammar Printing

/-! ## Tokens of the written form -/

/-- Puts parentheses around tokens where `needed`. -/
def enclosedTokens (needed : Bool) (ts : List Token) : List Token :=
  if needed then .leftParen :: (ts ++ [.rightParen]) else ts

def exprTokens : Expr → List Token
  | .var x => [.ident x]
  | .binary op left right =>
      enclosedTokens (left.needsParens op false) (exprTokens left) ++
        .op op.sign :: enclosedTokens (right.needsParens op true) (exprTokens right)

def bodyTokens : List (Assignment Expr) → List Token
  | [] => []
  | s :: rest => .ident s.target :: .assign :: (exprTokens s.value ++ .semicolon :: bodyTokens rest)

def functionTokens (f : Function) : List Token :=
  headerTokens f.name f.params ++
    (bodyTokens f.body ++ .returnWord :: (exprTokens f.result ++ [.semicolon, .rightBrace]))

/-- What these tokens are scanned into when they are written down. -/
def scanned (ts : List Token) : List Token :=
  ts.map Token.respelled

theorem ident_mem_enclosedTokens {needed : Bool} {ts : List Token} {x : String} :
    .ident x ∈ enclosedTokens needed ts ↔ .ident x ∈ ts := by
  cases needed <;> simp [enclosedTokens]

/-! ## They are derived -/

theorem Derives.level_eq {level : Nat} {ts : List Token} {e : Expr} (h : Derives level ts e) :
    level = 1 ∨ level = 2 ∨ level = 3 := by
  cases h with
  | chain op _ _ => cases op <;> simp [Operator.precedence]
  | _ => simp

/-- What is derived at a level is derived at the levels below it. -/
theorem Derives.mono {level level' : Nat} {ts : List Token} {e : Expr} (h : Derives level ts e)
    (hpos : 1 ≤ level') (hle : level' ≤ level) : Derives level' ts e := by
  have hthree : Derives 3 ts e → Derives 2 ts e := .atom
  have htwo : Derives 2 ts e → Derives 1 ts e := .term
  rcases h.level_eq with rfl | rfl | rfl
  · have hlevel : level' = 1 := by omega
    exact hlevel ▸ h
  · have hlevel : level' = 1 ∨ level' = 2 := by omega
    rcases hlevel with rfl | rfl
    · exact htwo h
    · exact h
  · have hlevel : level' = 1 ∨ level' = 2 ∨ level' = 3 := by omega
    rcases hlevel with rfl | rfl | rfl
    · exact htwo (hthree h)
    · exact hthree h
    · exact h

theorem one_le_precedence (op : Operator) : 1 ≤ op.precedence := by
  cases op <;> decide

theorem one_le_levelOf (e : Expr) : 1 ≤ levelOf e := by
  cases e with
  | var x =>
      exact Nat.le_add_left 1 2
  | binary op left right =>
      exact one_le_precedence op

/-- An operand has parentheses wherever its level would be too low. -/
theorem derives_operand (op : Operator) (onRight : Bool) {e : Expr}
    (h : Derives (levelOf e) (exprTokens e) e) :
    Derives (op.precedence + onRight.toNat)
      (enclosedTokens (e.needsParens op onRight) (exprTokens e)) e := by
  have hpos := one_le_precedence op
  have hprecedence := precedence_le op
  have hbool := Bool.toNat_le onRight
  cases hneeded : e.needsParens op onRight with
  | true =>
      -- parentheses lift any expression to an atom
      have hinner := h.mono (Nat.le_refl 1) (one_le_levelOf e)
      exact (Derives.parens hinner).mono (by omega) (by omega)
  | false =>
      exact h.mono (by omega) (le_levelOf hneeded)

theorem derives_exprTokens (e : Expr) : Derives (levelOf e) (exprTokens e) e := by
  induction e with
  | var x =>
      exact .name x
  | binary op left right ihl ihr =>
      exact .chain op (derives_operand op false ihl) (derives_operand op true ihr)

theorem nesting_enclosedTokens (needed : Bool) (e : Expr) :
    nesting (enclosedTokens needed (exprTokens e)) ≤ nesting (exprTokens e) + 1 := by
  cases needed with
  | true =>
      exact Nat.le_of_eq (nesting_enclosed (derives_exprTokens e).balanced)
  | false =>
      exact Nat.le_succ _

/-- An operand in parentheses is one operator further down. -/
theorem nesting_exprTokens (e : Expr) : nesting (exprTokens e) ≤ e.depth := by
  rw [Expr.depth_eq_height]
  induction e with
  | var x =>
      exact Nat.zero_le _
  | binary op left right ihl ihr =>
      have hleft := derives_operand op false (derives_exprTokens left)
      have hnestl := nesting_enclosedTokens (left.needsParens op false) left
      have hnestr := nesting_enclosedTokens (right.needsParens op true) right
      rw [exprTokens, nesting_append hleft.balanced, nesting_cons fun _ => rfl, Expr.height]
      omega

theorem within_exprTokens {limit : Nat} {e : Expr} (h : e.depth ≤ limit) :
    Within limit (exprTokens e) e :=
  ⟨(derives_exprTokens e).mono (Nat.le_refl 1) (one_le_levelOf e), h,
    Nat.le_trans (nesting_exprTokens e) h⟩

theorem isProgram_functionTokens {limit : Nat} {f : Function} (h : ∀ e ∈ f.exprs, e.depth ≤ limit) :
    IsProgram (Within limit) (Within limit) (functionTokens f) f := by
  have hbody : ∀ body : List (Assignment Expr), (∀ s ∈ body, s.value.depth ≤ limit) →
      Statements (Within limit) (bodyTokens body) body := by
    intro body hdepths
    induction body with
    | nil =>
        exact .nil
    | cons s rest ih =>
        rw [List.forall_mem_cons] at hdepths
        exact .cons (within_exprTokens hdepths.1) (ih hdepths.2)
  refine .intro (hbody f.body ?_) (within_exprTokens (h _ ?_))
  · exact fun s hs => h _ (List.mem_append_left _ (List.mem_map_of_mem hs))
  · exact List.mem_append_right _ List.mem_cons_self

/-- The tokens of a function name what the function does. -/
theorem ident_mem_functionTokens {f : Function} {x : String} :
    .ident x ∈ functionTokens f ↔ x ∈ f.name :: f.names := by
  have hexpr : ∀ e : Expr, .ident x ∈ exprTokens e ↔ x ∈ e.reads := by
    intro e
    induction e with
    | var y =>
        simp [exprTokens, Expr.reads]
    | binary op left right ihl ihr =>
        simp [exprTokens, Expr.reads, ident_mem_enclosedTokens, ihl, ihr]
  have hbody : ∀ body : List (Assignment Expr), .ident x ∈ bodyTokens body ↔
      x ∈ body.flatMap fun s => s.target :: s.value.reads := by
    intro body
    induction body with
    | nil =>
        simp [bodyTokens]
    | cons s rest ih =>
        simp [bodyTokens, hexpr, ih]
  have hparams : ∀ params : List String, .ident x ∈ nameTokens params ↔ x ∈ params := by
    intro params
    cases params <;> simp [nameTokens, moreTokens]
  simp [functionTokens, headerTokens, Function.names, hexpr, hbody, hparams]

/-! ## The written form is scanned into them -/

section Scans

variable {rest : List Char} {ts : List Token}

/-- An expression starts with a parenthesis or a name, so that no comment is opened before it. -/
theorem head_operand {e : Expr} (h : Named e) (needed : Bool) (rest : List Char) :
    (operandChars needed e ++ rest).head? ≠ some '/' := by
  induction e generalizing needed rest with
  | var x =>
      rcases continues_of_isIdentifier (h x List.mem_cons_self) with ⟨hne, hcontinues⟩
      cases needed with
      | true =>
          simp [operandChars_true]
      | false =>
          rw [operandChars_false, Expr.text]
          cases hx : x.toList with
          | nil =>
              exact absurd hx hne
          | cons c cs =>
              have hc := hcontinues c (hx ▸ List.mem_cons_self)
              simp only [List.cons_append, List.head?_cons, ne_eq, Option.some.injEq]
              rintro rfl
              exact absurd hc (by decide)
  | binary op left right ihl _ =>
      have hleft : Named left := fun x hx => h x (List.mem_append_left _ hx)
      cases needed with
      | true =>
          simp [operandChars_true]
      | false =>
          rw [operandChars_false, toList_text_binary, List.append_assoc]
          exact ihl hleft _ _

/-- What stands around an operand is scanned around its tokens. -/
theorem scans_operand {e : Expr}
    (h : ∀ {rest : List Char} {ts : List Token}, Token.Apart rest → Token.Scans rest ts →
      Token.Scans (e.text.toList ++ rest) (scanned (exprTokens e) ++ ts))
    (needed : Bool) (hrest : Token.Apart rest) (hts : Token.Scans rest ts) :
    Token.Scans (operandChars needed e ++ rest)
      (scanned (enclosedTokens needed (exprTokens e)) ++ ts) := by
  cases needed with
  | true =>
      have hclosing : Token.Scans (')' :: rest) (.rightParen :: ts) :=
        Token.scans_sign rfl (Or.inl (by decide)) hts
      have hinner := h (Token.apart_cons (by decide) rest) hclosing
      have hopening : Token.Scans ('(' :: (e.text.toList ++ ')' :: rest))
          (.leftParen :: (scanned (exprTokens e) ++ .rightParen :: ts)) :=
        Token.scans_sign rfl (Or.inl (by decide)) hinner
      simpa [operandChars_true, enclosedTokens, scanned, Token.respelled] using hopening
  | false =>
      simpa [operandChars_false, enclosedTokens] using h hrest hts

theorem scans_text {e : Expr} (h : Named e) (hrest : Token.Apart rest)
    (hts : Token.Scans rest ts) :
    Token.Scans (e.text.toList ++ rest) (scanned (exprTokens e) ++ ts) := by
  induction e generalizing rest ts with
  | var x =>
      exact Token.scans_word (h x List.mem_cons_self) hrest hts
  | binary op left right ihl ihr =>
      have hleft : Named left := fun x hx => h x (List.mem_append_left _ hx)
      have hright : Named right := fun x hx => h x (List.mem_append_right _ hx)
      have hsign : Token.ofSign? op.sign = some (.op op.sign) := by
        cases op <;> decide
      have hapart : ∀ cs, Token.Apart (op.sign :: cs) := by
        intro cs
        refine Token.apart_cons ?_ cs
        cases op <;> decide
      -- from right to left: the operator needs to know what is scanned behind it
      have hlater := scans_operand (ihr hright) (right.needsParens op true) hrest hts
      have hoperator := Token.scans_sign hsign (Or.inr (head_operand hright _ rest)) hlater
      have hall := scans_operand (ihl hleft) (left.needsParens op false) (hapart _) hoperator
      rw [toList_text_binary, exprTokens, List.append_assoc, scanned, List.map_append,
        List.append_assoc]
      exact hall

theorem scans_params {params : List String} (h : ∀ p ∈ params, isIdentifier p = true)
    (hrest : Token.Apart rest) (hts : Token.Scans rest ts) :
    Token.Scans (paramChars params ++ rest) (scanned (nameTokens params) ++ ts) := by
  induction params with
  | nil =>
      simpa [paramChars, nameTokens, scanned] using hts
  | cons p more ih =>
      rw [List.forall_mem_cons] at h
      cases more with
      | nil =>
          rw [paramChars_singleton]
          exact Token.scans_word h.1 hrest hts
      | cons q more =>
          have hblank := Token.scans_blank (c := ' ') (by decide) (ih h.2)
          have hcomma := Token.scans_sign (c := ',') (t := .comma) rfl (Or.inl (by decide)) hblank
          have hname := Token.scans_word h.1 (Token.apart_cons (by decide) _) hcomma
          rw [paramChars_cons_cons, List.append_assoc]
          exact hname

theorem scans_header {name : String} {params : List String} (hname : isIdentifier name = true)
    (hparams : ∀ p ∈ params, isIdentifier p = true) (hts : Token.Scans rest ts) :
    Token.Scans (name.toList ++ '(' :: (paramChars params ++ ')' :: '{' :: rest))
      (scanned (headerTokens name params) ++ ts) := by
  have hbrace := Token.scans_sign (c := '{') (t := .leftBrace) rfl (Or.inl (by decide)) hts
  have hclosing := Token.scans_sign (c := ')') (t := .rightParen) rfl (Or.inl (by decide)) hbrace
  have hnames := scans_params hparams (Token.apart_cons (by decide) _) hclosing
  have hopening := Token.scans_sign (c := '(') (t := .leftParen) rfl (Or.inl (by decide)) hnames
  have hall := Token.scans_word hname (Token.apart_cons (by decide) _) hopening
  simpa [headerTokens, scanned, Token.respelled] using hall

theorem scans_body {body : List (Assignment Expr)} {result : Expr} (hbody : NamedBody body)
    (hresult : Named result) :
    Token.Scans (bodyChars result body)
      (scanned (bodyTokens body) ++
        .returnWord :: (scanned (exprTokens result) ++ [.semicolon, .rightBrace])) := by
  induction body with
  | nil =>
      have hbrace : Token.Scans ['}'] [.rightBrace] :=
        Token.scans_sign rfl (Or.inl (by decide)) Token.scans_nil
      have hsemicolon : Token.Scans [';', '}'] [.semicolon, .rightBrace] :=
        Token.scans_sign rfl (Or.inl (by decide)) hbrace
      have htext := scans_text hresult (Token.apart_cons (by decide) _) hsemicolon
      have hblank := Token.scans_blank (c := ' ') (by decide) htext
      have hword := Token.scans_word (x := Token.keyword) (by decide)
        (Token.apart_cons (by decide) _) hblank
      have hreturn : Token.ofWord Token.keyword.toList = .returnWord := by
        decide
      have hkeyword : Token.keyword.toList = ['r', 'e', 't', 'u', 'r', 'n'] := by
        decide
      rw [hreturn, hkeyword] at hword
      simpa [bodyChars, bodyTokens, scanned] using hword
  | cons s rest ih =>
      have hrest : NamedBody rest := fun s' hs' => hbody s' (List.mem_cons_of_mem _ hs')
      rcases hbody s List.mem_cons_self with ⟨htarget, hvalue⟩
      have hblank := Token.scans_blank (c := ' ') (by decide) (ih hrest)
      have hsemicolon := Token.scans_sign (c := ';') (t := .semicolon) rfl (Or.inl (by decide))
        hblank
      have htext := scans_text hvalue (Token.apart_cons (by decide) _) hsemicolon
      have hassign := Token.scans_sign (c := '=') (t := .assign) rfl (Or.inl (by decide)) htext
      have hname := Token.scans_word htarget (Token.apart_cons (by decide) _) hassign
      simpa [bodyChars, bodyTokens, scanned, Token.respelled] using hname

end Scans

/-! ## Functions -/

theorem named_iff {f : Function} :
    f.Named ↔ ∀ x ∈ f.name :: f.names, isIdentifier x = true := by
  simp only [Function.names, List.forall_mem_append, List.forall_mem_flatMap,
    List.forall_mem_cons]
  constructor
  · intro h
    exact ⟨h.name, ⟨h.params, h.body⟩, h.result⟩
  · rintro ⟨hname, ⟨hparams, hbody⟩, hresult⟩
    exact ⟨hname, hparams, hbody, hresult⟩

/-- Whatever the names are, the written form is scanned into the tokens of the function, except that
the keyword stays the keyword. -/
theorem scans_function {f : Function} (h : f.Named) :
    Token.Scans f.text.toList (scanned (functionTokens f)) := by
  have hall := scans_header h.name h.params (scans_body h.body h.result)
  rw [toList_text_function, functionTokens]
  simpa [scanned, Token.respelled] using hall

/-- Names that are not the keyword are scanned into themselves. -/
theorem scanned_eq_self {ts : List Token} (h : ∀ x, .ident x ∈ ts → Token.IsName x) :
    scanned ts = ts := by
  have hsame : ∀ t ∈ ts, t.respelled = t := by
    intro t ht
    cases t with
    | ident x =>
        exact Token.ofWord_of_isName (h x ht)
    | _ =>
        rfl
  exact (List.map_congr_left hsame).trans (List.map_id _)

theorem parse_text_of_names {limit : Nat} {f : Function}
    (hnames : ∀ x ∈ f.name :: f.names, Token.IsName x) (hdepth : ∀ e ∈ f.exprs, e.depth ≤ limit) :
    parse limit f.text = .ok f := by
  have hf := named_iff.2 fun x hx => (hnames x hx).1
  rcases Token.exists_scan (scans_function hf) with ⟨lexemes, hscan, htokens⟩
  rw [scanned_eq_self fun x hx => hnames x (ident_mem_functionTokens.1 hx)] at htokens
  have hfunction := isProgram_within_iff.1 (isProgram_functionTokens hdepth)
  exact parse_eq_ok.2 ⟨lexemes, hscan, htokens ▸ hfunction⟩

/-- A function over identifiers that are not the keyword is read back from its written form, under
every limit that its own expressions keep. So no two of these functions are written alike. -/
theorem parse_text (limit : Nat) (f : Function) (hnames : ∀ x ∈ f.name :: f.names, Token.IsName x)
    (hdepth : ∀ e ∈ f.exprs, e.depth ≤ limit) :
    parse limit f.text = .ok f ∧
      ∀ g : Function, (∀ x ∈ g.name :: g.names, Token.IsName x) → g.text = f.text → g = f := by
  refine ⟨parse_text_of_names hnames hdepth, ?_⟩
  intro g hg htext
  exact Function.text_inj (named_iff.2 fun x hx => (hg x hx).1)
    (named_iff.2 fun x hx => (hnames x hx).1) htext

/-- The limit is met exactly by the product of sums. -/
theorem parse_text_sample :
    (∀ x ∈ sample.name :: sample.names, Token.IsName x) ∧ (∀ e ∈ sample.exprs, e.depth ≤ 2) ∧
      parse 2 sample.text = .ok sample := by
  have hnames : ∀ x ∈ sample.name :: sample.names, Token.IsName x := by
    decide
  have hdepth : ∀ e ∈ sample.exprs, e.depth ≤ 2 := by
    simp [Function.exprs, sample, Expr.depth_eq_height, Expr.height]
  exact ⟨hnames, hdepth, (parse_text 2 sample hnames hdepth).1⟩

end Calc

end StraightLine
