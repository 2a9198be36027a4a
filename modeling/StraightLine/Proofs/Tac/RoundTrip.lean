import StraightLine.Proofs.Calc.RoundTrip
import StraightLine.Proofs.Tac.Parser

/-!
# RoundTrip — three-address functions are read back

A three-address function is made of the same tokens as the Calc function that it stands for: its
expressions have at most one operator, so none of them needs a parenthesis. It is written with line
breaks and with blanks around every sign of a statement, which the scanner skips.

* `Tac.isFunction_functionTokens` — these tokens are derived with the function;
* `Tac.scans_function` — the written form is scanned into them;
* `Tac.parse_format` — the function is read back, and what else is read.
-/

namespace StraightLine

namespace Tac

open Grammar Printing
open Calc (exprTokens bodyTokens functionTokens scanned)

/-! ## Tokens of the written form -/

theorem derives_exprTokens (v : Value) : Derives (exprTokens v.expr) v := by
  cases v with
  | copy x =>
      exact .copy x
  | binary op x y =>
      exact .binary op x y

theorem isFunction_functionTokens (f : Function) : IsFunction (functionTokens f.toCalc) f := by
  have hbody : ∀ body : List (Assignment Value),
      Statements Derives (bodyTokens (body.map (Assignment.map Value.expr))) body := by
    intro body
    induction body with
    | nil =>
        exact .nil
    | cons s rest ih =>
        exact .cons (derives_exprTokens s.value) ih
  exact .intro (hbody f.body) (.name f.result)

/-! ## The written form is scanned into them -/

/-- What stands before every statement. -/
def indentation : List Char :=
  [' ', ' ', ' ', ' ']

/-- The statements and the result, up to the end of the function. -/
def bodyChars (result : String) : List (Assignment Value) → List Char
  | [] => indentation ++ Token.keyword.toList ++ ' ' :: (result.toList ++ [';', '\n', '}'])
  | s :: rest =>
      indentation ++ s.target.toList ++
        [' ', '=', ' '] ++ s.value.text.toList ++ ';' :: '\n' :: bodyChars result rest

theorem toList_text_function (f : Function) : f.text.toList =
    f.name.toList ++ '(' :: (paramChars f.params ++
      ')' :: '{' :: '\n' :: bodyChars f.result f.body) := by
  have hbody : ∀ body : List (Assignment Value),
      (String.join (body.map fun s => "    " ++ statementText s ++ ";\n")).toList ++
        ("    return " ++ f.result ++ ";\n\x7d").toList = bodyChars f.result body := by
    intro body
    induction body with
    | nil =>
        simp [bodyChars, indentation, Token.keyword]
    | cons s rest ih =>
        simp only [List.map_cons, String.join_cons, String.toList_append, List.append_assoc,
          statementText, bodyChars] at ih ⊢
        rw [ih]
        simp [indentation]
  rw [← hbody]
  simp [Function.text, Program.headerText, paramChars]

section Scans

variable {rest : List Char} {ts : List Token}

theorem scans_blanks {blanks : List Char} (h : ∀ c ∈ blanks, Token.isBlank c = true)
    (hts : Token.Scans rest ts) : Token.Scans (blanks ++ rest) ts := by
  induction blanks with
  | nil =>
      exact hts
  | cons c blanks ih =>
      rw [List.forall_mem_cons] at h
      exact Token.scans_blank h.1 (ih h.2)

/-- The operator has a blank on either side, so it opens no comment. -/
theorem scans_value {v : Value} (h : ∀ x ∈ v.reads, isIdentifier x = true)
    (hrest : Token.Apart rest) (hts : Token.Scans rest ts) :
    Token.Scans (v.text.toList ++ rest) (scanned (exprTokens v.expr) ++ ts) := by
  cases v with
  | copy x =>
      exact Token.scans_word (h x List.mem_cons_self) hrest hts
  | binary op x y =>
      have hsign : Token.ofSign? op.sign = some (.op op.sign) := by
        cases op <;> decide
      have hright := Token.scans_word (h y (by simp [Value.reads])) hrest hts
      have hblank := Token.scans_blank (c := ' ') (by decide) hright
      have hoperator := Token.scans_sign hsign (Or.inr (by simp)) hblank
      have hafter := Token.scans_blank (c := ' ') (by decide) hoperator
      have hleft := Token.scans_word (h x List.mem_cons_self) (Token.apart_cons (by decide) _)
        hafter
      simpa [Value.text, Value.expr, exprTokens, Calc.enclosedTokens, Expr.needsParens, scanned,
        Token.respelled, Operator.symbol] using hleft

theorem scans_body {body : List (Assignment Value)} {result : String}
    (hbody : ∀ s ∈ body, isIdentifier s.target = true ∧ ∀ x ∈ s.value.reads, isIdentifier x = true)
    (hresult : isIdentifier result = true) :
    Token.Scans (bodyChars result body)
      (scanned (bodyTokens (body.map (Assignment.map Value.expr))) ++
        .returnWord :: (scanned (exprTokens (.var result)) ++ [.semicolon, .rightBrace])) := by
  have hindentation : ∀ c ∈ indentation, Token.isBlank c = true := by
    simp [indentation, Token.isBlank]
  induction body with
  | nil =>
      -- a run is put together from its end, so the last line is read backwards here
      have hbrace : Token.Scans ['}'] [.rightBrace] :=
        Token.scans_sign rfl (Or.inl (by decide)) Token.scans_nil
      have hbreak := Token.scans_blank (c := '\n') (by decide) hbrace
      have hsemicolon := Token.scans_sign (c := ';') (t := .semicolon) rfl (Or.inl (by decide))
        hbreak
      have hname := Token.scans_word hresult (Token.apart_cons (by decide) _) hsemicolon
      have hblank := Token.scans_blank (c := ' ') (by decide) hname
      have hword := Token.scans_word (x := Token.keyword) (by decide)
        (Token.apart_cons (by decide) _) hblank
      -- this word alone is no name
      have hreturn : Token.ofWord Token.keyword.toList = .returnWord := by
        decide
      have hall := scans_blanks hindentation hword
      rw [hreturn] at hall
      simpa [bodyChars, bodyTokens, scanned, exprTokens, Token.respelled] using hall
  | cons s rest ih =>
      rw [List.forall_mem_cons] at hbody
      rcases hbody with ⟨⟨htarget, hvalue⟩, hrest⟩
      have hbreak := Token.scans_blank (c := '\n') (by decide) (ih hrest)
      have hsemicolon := Token.scans_sign (c := ';') (t := .semicolon) rfl (Or.inl (by decide))
        hbreak
      have htext := scans_value hvalue (Token.apart_cons (by decide) _) hsemicolon
      have hblank := Token.scans_blank (c := ' ') (by decide) htext
      have hassign := Token.scans_sign (c := '=') (t := .assign) rfl (Or.inl (by decide)) hblank
      have hafter := Token.scans_blank (c := ' ') (by decide) hassign
      have hname := Token.scans_word htarget (Token.apart_cons (by decide) _) hafter
      have hall := scans_blanks hindentation hname
      simpa [bodyChars, bodyTokens, scanned, Token.respelled, Assignment.map] using hall

end Scans

/-! ## Functions -/

theorem scans_function {f : Function} (h : ∀ x ∈ f.name :: f.names, isIdentifier x = true) :
    Token.Scans f.text.toList (scanned (functionTokens f.toCalc)) := by
  simp only [Function.names, List.forall_mem_append, List.forall_mem_flatMap,
    List.forall_mem_cons] at h
  rcases h with ⟨hname, ⟨hparams, hbody⟩, hresult, _⟩
  have hinside := Token.scans_blank (c := '\n') (by decide) (scans_body hbody hresult)
  have hall := Calc.scans_header hname hparams hinside
  rw [toList_text_function]
  simpa [functionTokens, Function.toCalc, Program.map, scanned, Token.respelled] using hall

theorem parse_text_of_names {f : Function} (h : ∀ x ∈ f.name :: f.names, Token.IsName x) :
    parse f.text = .ok f := by
  have hscans := scans_function fun x hx => (h x hx).1
  rcases Token.exists_scan hscans with ⟨lexemes, hscan, htokens⟩
  have hnames : ∀ x, .ident x ∈ functionTokens f.toCalc → Token.IsName x := by
    intro x hx
    apply h
    rw [← f.names_toCalc]
    exact Calc.ident_mem_functionTokens.1 hx
  rw [Calc.scanned_eq_self hnames] at htokens
  apply (parse_of_scan hscan).2
  rw [htokens]
  exact isFunction_functionTokens f

/-- A function over identifiers that are not the keyword is read back from its written form. Of the
texts that can be scanned, those are accepted whose tokens are derived, and the answer is the
function of the derivation. -/
theorem parse_format :
    (∀ f : Function, (∀ x ∈ f.name :: f.names, Token.IsName x) → parse f.text = .ok f) ∧
    ∀ (source : String) (lexemes : List Lexeme), Token.scan source = .ok lexemes →
      ((∃ f, parse source = .ok f) ↔ ∃ f, IsFunction (tokens lexemes) f) ∧
      ∀ f, parse source = .ok f ↔ IsFunction (tokens lexemes) f := by
  refine ⟨fun f => parse_text_of_names, ?_⟩
  intro source lexemes hscan
  have hparse : ∀ f, parse source = .ok f ↔ IsFunction (tokens lexemes) f :=
    fun f => parse_of_scan hscan
  exact ⟨exists_congr hparse, hparse⟩

/-- Both kinds of right-hand sides, and a name that is assigned twice. -/
theorem parse_format_sample :
    (∀ x ∈ sample.name :: sample.names, Token.IsName x) ∧ parse sample.text = .ok sample ∧
      ∃ lexemes, Token.scan sample.text = .ok lexemes ∧ IsFunction (tokens lexemes) sample := by
  have hnames : ∀ x ∈ sample.name :: sample.names, Token.IsName x := by
    decide
  have hparse := parse_format.1 sample hnames
  rcases Token.exists_scan (scans_function fun x hx => (hnames x hx).1) with ⟨lexemes, hscan, _⟩
  exact ⟨hnames, hparse, lexemes, hscan, ((parse_format.2 _ _ hscan).2 sample).1 hparse⟩

end Tac

end StraightLine
