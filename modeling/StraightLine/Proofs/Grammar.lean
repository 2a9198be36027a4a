import StraightLine.Tac
import StraightLine.Token

/-!
# Grammar — which sequences of tokens are functions

    F ::= ident '(' [ident {',' ident}] ')' '{' {ident '=' V ';'} 'return' R ';' '}'

The frame `F` is shared by both languages, which differ in the right-hand sides `V` and the results
`R`. In Calc both are expressions:

    E ::= T {('+'|'-') T}      T ::= A {('*'|'/') A}      A ::= ident | '(' E ')'

In Tac a right-hand side is `ident [('+'|'-'|'*'|'/') ident]` and a result is an `ident`.

The limit of the Calc reader is about two more things, the height of trees and the number of
parentheses that are open at once. The parentheses of a header are not among them.

* `Grammar.IsProgram` — the frame, with the function that is derived;
* `Calc.Derives`, `Calc.IsFunction` — expressions with their trees, and Calc functions;
* `Calc.derives_iff_links` — chains, joined from left to right;
* `Grammar.mostOpen`, `Grammar.nesting` — open parentheses;
* `Calc.isProgram_within_iff` — limits on each expression are limits on the function;
* `Tac.Derives`, `Tac.IsFunction` — right-hand sides, and Tac functions.
-/

namespace StraightLine

namespace Grammar

def tokens (ls : List Lexeme) : List Token :=
  ls.map Lexeme.token

theorem tokens_append (ls ls' : List Lexeme) : tokens (ls ++ ls') = tokens ls ++ tokens ls' :=
  List.map_append

/-! ## The frame -/

/-- `{',' ident}` -/
def moreTokens (names : List String) : List Token :=
  names.flatMap fun x => [.comma, .ident x]

/-- `[ident {',' ident}]` -/
def nameTokens : List String → List Token
  | [] => []
  | x :: rest => .ident x :: moreTokens rest

/-- `ident '(' [ident {',' ident}] ')' '{'` -/
def headerTokens (name : String) (params : List String) : List Token :=
  .ident name :: .leftParen :: (nameTokens params ++ [.rightParen, .leftBrace])

section Frame

variable {V R : Type}

/-- `{ident '=' V ';'}` -/
inductive Statements (Value : List Token → V → Prop) : List Token → List (Assignment V) → Prop where
  | nil : Statements Value [] []
  | cons {target : String} {vs ts : List Token} {value : V} {rest : List (Assignment V)} :
      Value vs value → Statements Value ts rest →
      Statements Value (.ident target :: .assign :: (vs ++ .semicolon :: ts))
        (⟨target, value⟩ :: rest)

/-- `F`, with the function that its parts make up. -/
inductive IsProgram (Value : List Token → V → Prop) (Result : List Token → R → Prop) :
    List Token → Program V R → Prop where
  | intro {name : String} {params : List String} {ts rs : List Token} {body : List (Assignment V)}
      {result : R} :
      Statements Value ts body → Result rs result →
      IsProgram Value Result
        (headerTokens name params ++ (ts ++ .returnWord :: (rs ++ [.semicolon, .rightBrace])))
        { name, params, body, result }

end Frame

/-! ## Open parentheses -/

def openAfter (opened : Nat) : Token → Nat
  | .leftParen => opened + 1
  | .rightParen => opened - 1
  | _ => opened

/-- The most parentheses that are open at once, from where `opened` of them are. -/
def mostOpen (opened : Nat) : List Token → Nat
  | [] => opened
  | t :: rest => max opened (mostOpen (openAfter opened t) rest)

/-- The most parentheses of these tokens that are open at once. -/
def nesting (ts : List Token) : Nat :=
  mostOpen 0 ts

/-- The body of a function with its braces, or whatever else starts with a brace. -/
def fromBrace (ts : List Token) : List Token :=
  ts.dropWhile (· != .leftBrace)

/-- Tokens that close what they open and nothing else. -/
structure Balanced (ts : List Token) : Prop where
  stays : ∀ n, ts.foldl openAfter n = n
  shifts : ∀ n, mostOpen n ts = n + nesting ts

theorem le_mostOpen (n : Nat) (ts : List Token) : n ≤ mostOpen n ts := by
  cases ts with
  | nil =>
      exact Nat.le_refl n
  | cons t rest =>
      exact Nat.le_max_left _ _

theorem mostOpen_append (n : Nat) (ts us : List Token) :
    mostOpen n (ts ++ us) = max (mostOpen n ts) (mostOpen (ts.foldl openAfter n) us) := by
  induction ts generalizing n with
  | nil =>
      exact (Nat.max_eq_right (le_mostOpen n us)).symm
  | cons t rest ih =>
      simp only [List.cons_append, mostOpen, ih, List.foldl_cons, Nat.max_assoc]

theorem nesting_append {ts : List Token} (h : Balanced ts) (us : List Token) :
    nesting (ts ++ us) = max (nesting ts) (nesting us) := by
  rw [nesting, mostOpen_append, h.stays, nesting, nesting]

theorem Balanced.append {ts us : List Token} (hts : Balanced ts) (hus : Balanced us) :
    Balanced (ts ++ us) where
  stays := by
    intro n
    rw [List.foldl_append, hts.stays, hus.stays]
  shifts := by
    intro n
    rw [mostOpen_append, hts.stays, hts.shifts, hus.shifts, nesting_append hts]
    omega

/-- A token that is no parenthesis. -/
theorem balanced_singleton {t : Token} (h : ∀ n, openAfter n t = n) : Balanced [t] where
  stays := h
  shifts := by
    intro n
    simp [nesting, mostOpen, h]

theorem nesting_cons {t : Token} (h : ∀ n, openAfter n t = n) (ts : List Token) :
    nesting (t :: ts) = nesting ts := by
  simp [nesting, mostOpen, h]

section Enclosed

variable {ts : List Token}

theorem mostOpen_enclosed (h : Balanced ts) (n : Nat) :
    mostOpen n (.leftParen :: (ts ++ [.rightParen])) = n + (nesting ts + 1) := by
  simp only [mostOpen, openAfter, mostOpen_append, h.stays, h.shifts, Nat.add_sub_cancel]
  omega

theorem nesting_enclosed (h : Balanced ts) :
    nesting (.leftParen :: (ts ++ [.rightParen])) = nesting ts + 1 := by
  rw [nesting, mostOpen_enclosed h, Nat.zero_add]

theorem Balanced.enclosed (h : Balanced ts) :
    Balanced (.leftParen :: (ts ++ [.rightParen])) where
  stays := by
    intro n
    simp [openAfter, h.stays]
  shifts := by
    intro n
    rw [mostOpen_enclosed h, nesting_enclosed h]

end Enclosed

theorem leftBrace_notMem_names (names : List String) : .leftBrace ∉ nameTokens names := by
  cases names <;> simp [nameTokens, moreTokens]

theorem fromBrace_header (name : String) (params : List String) (ts : List Token) :
    fromBrace (headerTokens name params ++ ts) = .leftBrace :: ts := by
  have hheader : headerTokens name params ++ ts =
      (.ident name :: .leftParen :: (nameTokens params ++ [.rightParen])) ++ .leftBrace :: ts := by
    simp [headerTokens]
  have hfront : ∀ t ∈ .ident name :: .leftParen :: (nameTokens params ++ [.rightParen]),
      (t != .leftBrace) = true := by
    intro t ht
    rw [bne_iff_ne]
    rintro rfl
    simp [leftBrace_notMem_names] at ht
  rw [hheader, fromBrace, List.dropWhile_append_of_pos hfront]
  rfl

end Grammar

/-! ## Calc -/

namespace Calc

open Grammar

/-- The tokens are an expression (level 1), a term (level 2) or an atom (level 3), and this is its
tree. A chain of operands is one operand, or a shorter chain with one more sign and operand behind
it, which are the root of its tree. -/
inductive Derives : Nat → List Token → Expr → Prop where
  | name (x : String) : Derives 3 [.ident x] (.var x)
  | parens {ts : List Token} {e : Expr} :
      Derives 1 ts e → Derives 3 (.leftParen :: (ts ++ [.rightParen])) e
  | atom {ts : List Token} {e : Expr} : Derives 3 ts e → Derives 2 ts e
  | term {ts : List Token} {e : Expr} : Derives 2 ts e → Derives 1 ts e
  | chain (op : Operator) {ls rs : List Token} {l r : Expr} :
      Derives op.precedence ls l → Derives (op.precedence + 1) rs r →
      Derives op.precedence (ls ++ .op op.sign :: rs) (.binary op l r)

/-- An operator with the operand behind it. -/
structure Link where
  op : Operator
  ts : List Token
  operand : Expr

def linkTokens (links : List Link) : List Token :=
  links.flatMap fun k => .op k.op.sign :: k.ts

/-- Operands joined from left to right. -/
def joined (first : Expr) (links : List Link) : Expr :=
  links.foldl (fun left k => .binary k.op left k.operand) first

theorem Derives.links {level : Nat} {ts : List Token} {e : Expr} {links : List Link}
    (h : Derives level ts e)
    (hlinks : ∀ k ∈ links, k.op.precedence = level ∧ Derives (level + 1) k.ts k.operand) :
    Derives level (ts ++ linkTokens links) (joined e links) := by
  induction links generalizing ts e with
  | nil =>
      rwa [linkTokens, List.flatMap_nil, List.append_nil]
  | cons k rest ih =>
      rw [List.forall_mem_cons] at hlinks
      rcases hlinks with ⟨⟨rfl, hoperand⟩, hrest⟩
      have hlonger := ih (.chain k.op h hoperand) hrest
      simpa [linkTokens, joined] using hlonger

/-- At both levels with operators, what is derived is a chain of operands from the next level,
joined from left to right. -/
theorem derives_iff_links {level : Nat} (hlevel : level = 1 ∨ level = 2) {ts : List Token}
    {e : Expr} :
    Derives level ts e ↔ ∃ fs first links, Derives (level + 1) fs first ∧
      (∀ k ∈ links, k.op.precedence = level ∧ Derives (level + 1) k.ts k.operand) ∧
      ts = fs ++ linkTokens links ∧ e = joined first links := by
  constructor
  · intro h
    -- one operand is a chain without links
    have hsingle : ∀ {ts e}, Derives (level + 1) ts e → ∃ fs first links,
        Derives (level + 1) fs first ∧
        (∀ k ∈ links, k.op.precedence = level ∧ Derives (level + 1) k.ts k.operand) ∧
        ts = fs ++ linkTokens links ∧ e = joined first links :=
      fun {ts e} h => ⟨ts, e, [], h, by simp, by simp [linkTokens], rfl⟩
    induction h with
    | name x =>
        omega
    | parens _ _ =>
        omega
    | atom h _ =>
        exact hsingle h
    | term h _ =>
        exact hsingle h
    | @chain op ls rs l r _ hr ihl _ =>
        rcases ihl hlevel hsingle with ⟨fs, first, links, hfirst, hlinks, rfl, rfl⟩
        refine ⟨fs, first, links ++ [⟨op, rs, r⟩], hfirst, ?_, ?_, ?_⟩
        · rw [List.forall_mem_append, List.forall_mem_singleton]
          exact ⟨hlinks, rfl, hr⟩
        · simp [linkTokens]
        · simp [joined]
  · rintro ⟨fs, first, links, hfirst, hlinks, rfl, rfl⟩
    have hraised : Derives level fs first := by
      rcases hlevel with rfl | rfl
      · exact .term hfirst
      · exact .atom hfirst
    exact hraised.links hlinks

/-- The tokens are a Calc function, and it is this one. -/
def IsFunction : List Token → Function → Prop :=
  IsProgram (Derives 1) (Derives 1)

theorem Derives.balanced {level : Nat} {ts : List Token} {e : Expr} (h : Derives level ts e) :
    Balanced ts := by
  induction h with
  | name x =>
      exact balanced_singleton fun _ => rfl
  | parens _ ih =>
      exact ih.enclosed
  | atom _ ih =>
      exact ih
  | term _ ih =>
      exact ih
  | chain op _ _ ihl ihr =>
      have hsign : Balanced [.op op.sign] := balanced_singleton fun _ => rfl
      exact ihl.append (hsign.append ihr)

/-! ## Limits -/

/-- An expression that is no higher than `limit` and has no more parentheses open at once. -/
def Within (limit : Nat) (ts : List Token) (e : Expr) : Prop :=
  Derives 1 ts e ∧ e.depth ≤ limit ∧ nesting ts ≤ limit

theorem balanced_statements {ts : List Token} {body : List (Assignment Expr)}
    (h : Statements (Derives 1) ts body) : Balanced ts := by
  induction h with
  | nil =>
      exact ⟨fun _ => rfl, fun _ => rfl⟩
  | cons hvalue _ ih =>
      have htarget : ∀ x : String, Balanced [.ident x] := fun _ => balanced_singleton fun _ => rfl
      have hassign : Balanced [.assign] := balanced_singleton fun _ => rfl
      have hsemicolon : Balanced [.semicolon] := balanced_singleton fun _ => rfl
      exact (htarget _).append (hassign.append (hvalue.balanced.append (hsemicolon.append ih)))

theorem nesting_statement {vs : List Token} {value : Expr} (h : Derives 1 vs value)
    (target : String) (ts : List Token) :
    nesting (.ident target :: .assign :: (vs ++ .semicolon :: ts)) =
      max (nesting vs) (nesting ts) := by
  rw [nesting_cons fun _ => rfl, nesting_cons fun _ => rfl, nesting_append h.balanced,
    nesting_cons fun _ => rfl]

theorem statements_within_iff {limit : Nat} {ts : List Token} {body : List (Assignment Expr)} :
    Statements (Within limit) ts body ↔
      Statements (Derives 1) ts body ∧ (∀ s ∈ body, s.value.depth ≤ limit) ∧
        nesting ts ≤ limit := by
  constructor
  · intro h
    induction h with
    | nil =>
        exact ⟨.nil, by simp, Nat.zero_le _⟩
    | cons hvalue _ ih =>
        rcases hvalue with ⟨hderives, hdepth, hnesting⟩
        rcases ih with ⟨hrest, hdepths, hnestings⟩
        refine ⟨.cons hderives hrest, List.forall_mem_cons.2 ⟨hdepth, hdepths⟩, ?_⟩
        rw [nesting_statement hderives]
        exact Nat.max_le.2 ⟨hnesting, hnestings⟩
  · rintro ⟨h, hdepths, hnesting⟩
    induction h with
    | nil =>
        exact .nil
    | cons hderives _ ih =>
        rw [nesting_statement hderives, Nat.max_le] at hnesting
        rw [List.forall_mem_cons] at hdepths
        exact .cons ⟨hderives, hdepths.1, hnesting.1⟩ (ih hdepths.2 hnesting.2)

/-- Limits on each expression are limits on the expressions of the function and on the parentheses
of its body. -/
theorem isProgram_within_iff {limit : Nat} {ts : List Token} {f : Function} :
    IsProgram (Within limit) (Within limit) ts f ↔
      IsFunction ts f ∧ (∀ e ∈ f.exprs, e.depth ≤ limit) ∧ nesting (fromBrace ts) ≤ limit := by
  -- nothing between the expressions opens or closes a parenthesis
  have hbody : ∀ {ts rs : List Token} {body : List (Assignment Expr)} {result : Expr},
      Statements (Derives 1) ts body → Derives 1 rs result →
      nesting (.leftBrace :: (ts ++ .returnWord :: (rs ++ [.semicolon, .rightBrace]))) =
        max (nesting ts) (nesting rs) := by
    intro ts rs body result hts hrs
    rw [nesting_cons fun _ => rfl, nesting_append (balanced_statements hts),
      nesting_cons fun _ => rfl, nesting_append hrs.balanced, nesting_cons fun _ => rfl]
    exact congrArg _ (Nat.max_eq_left (Nat.zero_le _))
  have hexprs : ∀ {f : Function}, (∀ e ∈ f.exprs, e.depth ≤ limit) ↔
      (∀ s ∈ f.body, s.value.depth ≤ limit) ∧ f.result.depth ≤ limit := by
    intro f
    simp [Function.exprs, or_imp, forall_and]
  constructor
  · rintro ⟨hts, hrs, hdepth, hnesting⟩
    rcases statements_within_iff.1 hts with ⟨hts, hdepths, hnestings⟩
    refine ⟨.intro hts hrs, hexprs.2 ⟨hdepths, hdepth⟩, ?_⟩
    rw [fromBrace_header, hbody hts hrs]
    exact Nat.max_le.2 ⟨hnestings, hnesting⟩
  · rintro ⟨⟨hts, hrs⟩, hdepths, hnesting⟩
    rw [fromBrace_header, hbody hts hrs, Nat.max_le] at hnesting
    rw [hexprs] at hdepths
    exact .intro (statements_within_iff.2 ⟨hts, hdepths.1, hnesting.1⟩)
      ⟨hrs, hdepths.2, hnesting.2⟩

end Calc

/-! ## Tac -/

namespace Tac

open Grammar

/-- `ident [op ident]` -/
inductive Derives : List Token → Value → Prop where
  | copy (x : String) : Derives [.ident x] (.copy x)
  | binary (op : Operator) (x y : String) :
      Derives [.ident x, .op op.sign, .ident y] (.binary op x y)

/-- `ident` -/
inductive DerivesResult : List Token → String → Prop where
  | name (x : String) : DerivesResult [.ident x] x

/-- The tokens are a Tac function, and it is this one. -/
def IsFunction : List Token → Function → Prop :=
  IsProgram Derives DerivesResult

end Tac

end StraightLine
