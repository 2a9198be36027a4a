import StraightLine.Calc.Parser
import StraightLine.Proofs.Parser

/-!
# Calc.Parser — expressions are read exactly

The reader for a level of expressions reads an operand and then goes on with every operator of this
level. Behind a derived sequence it therefore stands where a chain with this tree is continued, and
stops there if no operator of the level follows.

* `Calc.Parser.Reads` — a derived sequence with both limits;
* `Calc.Parser.sound_expressionOf` — what is read is derived within the limits;
* `Calc.Parser.reaches_of_derives` — what is derived within the limits is read;
* `Calc.Parser.exact_measured` — both for expressions, with the depths that are counted;
* `Calc.IsFunction.unique` — a derived sequence has one tree;
* `Calc.parse_eq_ok_iff` — which texts are functions for the parser, and which functions they are.
-/

namespace StraightLine

namespace Calc

namespace Parser

open StraightLine.Parser Grammar

/-- The lexemes are derived, the measured depth is the depth of the tree, and both limits hold. -/
structure Reads (b : Bounds) (room level : Nat) (ls : List Lexeme) (m : Measured) : Prop where
  derives : Derives level (tokens ls) m.expr
  depth : m.depth = m.expr.depth
  limited : m.expr.depth ≤ b.limit
  nested : nesting (tokens ls) ≤ room

theorem join_eq_ok {b : Bounds} {op : Operator} {left right m : Measured} {input : List Lexeme} :
    b.join op left right input = .ok m ↔
      max left.depth right.depth + 1 ≤ b.limit ∧
        m = ⟨.binary op left.expr right.expr, max left.depth right.depth + 1⟩ := by
  unfold Bounds.join
  by_cases h : b.limit < max left.depth right.depth + 1
  · simp [h, Nat.not_le.2 h]
  · simp [h, Nat.not_lt.1 h, eq_comm]

theorem depth_binary (op : Operator) (left right : Expr) :
    (Expr.binary op left right).depth = max left.depth right.depth + 1 := by
  simp [Expr.depth_eq_height, Expr.height]

section Sound

variable {b : Bounds} {room level : Nat}

/-- A chain with one more operand. -/
theorem Reads.chain {op : Operator} {ls rs : List Lexeme} {l : Lexeme} {left right : Measured}
    (hleft : Reads b room op.precedence ls left) (hl : l.token = .op op.sign)
    (hright : Reads b room (op.precedence + 1) rs right)
    (hdepth : max left.depth right.depth + 1 ≤ b.limit) :
    Reads b room op.precedence (ls ++ l :: rs)
      ⟨.binary op left.expr right.expr, max left.depth right.depth + 1⟩ := by
  have htokens : tokens (ls ++ l :: rs) = tokens ls ++ .op op.sign :: tokens rs := by
    simp [tokens, hl]
  have hbinary : (Expr.binary op left.expr right.expr).depth =
      max left.depth right.depth + 1 := by
    rw [depth_binary, hleft.depth, hright.depth]
  refine ⟨?_, hbinary.symm, hbinary ▸ hdepth, ?_⟩
  · rw [htokens]
    exact .chain op hleft.derives hright.derives
  · rw [htokens, nesting_append hleft.derives.balanced, nesting_cons fun _ => rfl]
    exact Nat.max_le.2 ⟨hleft.nested, hright.nested⟩

/-- What the reader takes is derived within the limits. -/
def Sound (b : Bounds) (room level : Nat) (reader : Reader Measured) : Prop :=
  ∀ {input rest : List Lexeme} {m : Measured}, Takes reader input rest m →
    ∃ ls, input = ls ++ rest ∧ Reads b room level ls m

theorem sound_chainFrom {operand : Reader Measured} (hoperand : Sound b room (level + 1) operand)
    {input ls : List Lexeme} {left c : Consumed Measured input} (hinput : input = ls ++ left.rest)
    (hleft : Reads b room level ls left.value) (h : chainFrom b operand level left = .ok c) :
    ∃ ls', input = ls' ++ c.rest ∧ Reads b room level ls' c.value := by
  fun_induction chainFrom b operand level left generalizing ls with
  | case1 left _ | case6 left | case7 left =>
      cases h
      exact ⟨ls, hinput, hleft⟩
  | case2 | case3 | case4 =>
      cases h
  | case5 left l rest hrest sign hl op hop hlevel right hright joined hjoin ih =>
      -- the chain so far is the left operand of the longer one
      subst hlevel
      rcases hoperand (takes_iff.1 hright) with ⟨rs, hrs, hright⟩
      rcases join_eq_ok.1 hjoin with ⟨hdepth, rfl⟩
      have hsign : l.token = .op op.sign := by
        rw [hl, Operator.ofSign?_eq_some hop]
      have hlonger : input = (ls ++ l :: rs) ++ right.rest := by
        rw [hrest, hrs] at hinput
        simpa using hinput
      exact ih hlonger (hleft.chain hsign hright hdepth) h

theorem sound_chain {operand : Reader Measured} (hoperand : Sound b room (level + 1) operand)
    (hup : ∀ {ts : List Token} {e : Expr}, Derives (level + 1) ts e → Derives level ts e) :
    Sound b room level (chain b operand level) := by
  rintro input rest m ⟨_, h⟩
  unfold chain at h
  split at h
  · cases h
  · next first hfirst =>
      rcases hoperand (takes_iff.1 hfirst) with ⟨ls, hls, hread⟩
      exact sound_chainFrom hoperand hls { hread with derives := hup hread.derives } h

theorem sound_expressionOf {reader : Reader Measured} (h : Sound b room 3 reader) :
    Sound b room 1 (expressionOf b reader) :=
  sound_chain (sound_chain h .atom) .term

theorem reads_name {l : Lexeme} {name : String} (hl : l.token = .ident name) :
    Reads b room 3 [l] ⟨.var name, 0⟩ := by
  have htokens : tokens [l] = [.ident name] := by
    simp [tokens, hl]
  refine ⟨?_, by simp [Expr.depth_eq_height, Expr.height],
    by simp [Expr.depth_eq_height, Expr.height], ?_⟩
  · rw [htokens]
    exact .name name
  · rw [htokens]
    exact Nat.zero_le _

theorem Reads.parens {ls : List Lexeme} {m : Measured} {l l' : Lexeme} (h : Reads b room 1 ls m)
    (hl : l.token = .leftParen) (hl' : l'.token = .rightParen) :
    Reads b (room + 1) 3 (l :: (ls ++ [l'])) m := by
  have htokens : tokens (l :: (ls ++ [l'])) = .leftParen :: (tokens ls ++ [.rightParen]) := by
    simp [tokens, hl, hl']
  refine ⟨?_, h.depth, h.limited, ?_⟩
  · rw [htokens]
    exact .parens h.derives
  · rw [htokens, nesting_enclosed h.derives.balanced]
    exact Nat.succ_le_succ h.nested

theorem sound_atom_of {b : Bounds} {room : Nat}
    (hinner : ∀ r, room = r + 1 → Sound b r 3 (atom b r)) : Sound b room 3 (atom b room) := by
  rintro input rest m ⟨_, h⟩
  fun_induction atom b room input with
  | case1 | case3 | case5 =>
      cases h
  | case2 room l later name hl =>
      cases h
      exact ⟨[l], rfl, reads_name hl⟩
  | case4 l later hl room =>
      simp only [except_bind_eq_ok] at h
      rcases h with ⟨inner, hread, closing, hclosing, hdone⟩
      cases hdone
      rcases sound_expressionOf (hinner room rfl) (takes_iff.1 hread) with ⟨ls, hlater, hls⟩
      rcases takes_expect.1 (takes_iff.1 hclosing) with ⟨l', hl', hrest⟩
      refine ⟨l :: (ls ++ [l']), ?_, hls.parens hl hl'⟩
      rw [hrest] at hlater
      refine (congrArg (l :: ·) hlater).trans ?_
      simp

/-- The recursion is on the parentheses that may still be opened. -/
theorem sound_atom (b : Bounds) (room : Nat) : Sound b room 3 (atom b room) := by
  induction room with
  | zero =>
      exact sound_atom_of fun r hr => by omega
  | succ room ih =>
      refine sound_atom_of fun r hr => ?_
      cases hr
      exact ih

end Sound

/-! ## What is derived is read -/

/-- No operator of the level or of a higher one follows. -/
def Stops (level : Nat) (rest : List Lexeme) : Prop :=
  ∀ l ∈ rest.head?, ∀ sign, l.token = .op sign →
    ∃ op, Operator.ofSign? sign = some op ∧ op.precedence < level

theorem Stops.mono {level level' : Nat} {rest : List Lexeme} (h : Stops level rest)
    (hle : level ≤ level') : Stops level' rest := by
  intro l hl sign hsign
  rcases h l hl sign hsign with ⟨op, hop, hlt⟩
  exact ⟨op, hop, Nat.lt_of_lt_of_le hlt hle⟩

section Complete

variable {b : Bounds} {operand : Reader Measured} {level : Nat} {input : List Lexeme}

theorem chainFrom_of_stops {left : Consumed Measured input} (h : Stops level left.rest) :
    chainFrom b operand level left = .ok left := by
  rcases left with ⟨m, rest, hshorter⟩
  cases rest with
  | nil =>
      rw [chainFrom]
  | cons l rest =>
      rw [chainFrom]
      dsimp only
      split
      · next sign hsign =>
          rcases h l rfl sign hsign with ⟨op, hop, hlt⟩
          simp [hop, Nat.ne_of_lt hlt]
      · rfl

theorem chainFrom_cons {op : Operator} {right : Measured} {l : Lexeme} {rest later : List Lexeme}
    (left : Measured) (h : (l :: rest).length < input.length) (hl : l.token = .op op.sign)
    (hright : Takes operand rest later right)
    (hdepth : max left.depth right.depth + 1 ≤ b.limit) :
    ∃ h', chainFrom b operand op.precedence (⟨left, l :: rest, h⟩ : Consumed Measured input) =
      chainFrom b operand op.precedence
        ⟨⟨.binary op left.expr right.expr, max left.depth right.depth + 1⟩, later, h'⟩ := by
  rcases hright with ⟨hshorter, hright⟩
  have hlength : later.length < input.length := by
    rw [List.length_cons] at h
    omega
  refine ⟨hlength, ?_⟩
  have hjoin : b.join op left right later = .ok _ :=
    join_eq_ok.2 ⟨hdepth, rfl⟩
  rw [chainFrom]
  simp [hl, hright, hjoin]

theorem chain_of_takes {rest : List Lexeme} {m : Measured} (h : Takes operand input rest m) :
    ∃ h', chain b operand level input = chainFrom b operand level ⟨m, rest, h'⟩ := by
  rcases h with ⟨hshorter, hread⟩
  refine ⟨hshorter, ?_⟩
  simp only [chain, hread]

theorem takes_atom_name {room : Nat} {x : String} {l : Lexeme} {rest : List Lexeme}
    (hl : l.token = .ident x) : Takes (atom b room) (l :: rest) rest ⟨.var x, 0⟩ := by
  refine ⟨by simp, ?_⟩
  unfold atom
  simp only [hl]
  rfl

theorem takes_atom_parens {room : Nat} {l l' : Lexeme} {later rest : List Lexeme} {m : Measured}
    (hl : l.token = .leftParen) (hl' : l'.token = .rightParen)
    (h : Takes (expressionOf b (atom b room)) later (l' :: rest) m) :
    Takes (atom b (room + 1)) (l :: later) rest m := by
  rcases h with ⟨hshorter, hread⟩
  refine ⟨?_, ?_⟩
  · simp only [List.length_cons] at hshorter ⊢
    omega
  · unfold atom
    simp only [hl, except_bind_eq_ok]
    exact ⟨_, hread, _, expect_cons hl', rfl⟩

/-- The readers for expressions, terms and atoms. -/
def readerAt (b : Bounds) (room : Nat) : (level : Nat) → Reader Measured
  | 1 => expressionOf b (atom b room)
  | 2 => chain b (atom b room) 2
  | _ => atom b room

/-- What the reader for a level does behind a first operand. -/
def continueFrom (b : Bounds) (room level : Nat) {input : List Lexeme}
    (left : Consumed Measured input) : Except CompileError (Consumed Measured input) :=
  if level < 3 then chainFrom b (readerAt b room (level + 1)) level left else .ok left

/-- The reader for the level comes to the end of `ls` with the tree `e`. -/
def Reaches (b : Bounds) (room level : Nat) (ls : List Lexeme) (e : Expr) : Prop :=
  ∀ rest, Stops (level + 1) rest → ∃ h, readerAt b room level (ls ++ rest) =
    continueFrom b room level ⟨⟨e, e.depth⟩, rest, h⟩

theorem Reaches.takes {room : Nat} {ls rest : List Lexeme} {e : Expr}
    (h : Reaches b room level ls e) (hstops : Stops level rest) :
    Takes (readerAt b room level) (ls ++ rest) rest ⟨e, e.depth⟩ := by
  rcases h rest (hstops.mono (Nat.le_succ level)) with ⟨hshorter, hread⟩
  refine ⟨hshorter, hread.trans ?_⟩
  unfold continueFrom
  split
  · exact chainFrom_of_stops hstops
  · rfl

theorem stops_of_ne_op {l : Lexeme} {rest : List Lexeme} (h : ∀ sign, l.token ≠ .op sign) :
    Stops level (l :: rest) := by
  intro l' hl' sign hsign
  cases hl'
  exact absurd hsign (h sign)

theorem stops_op {op : Operator} {l : Lexeme} {rest : List Lexeme} (hl : l.token = .op op.sign) :
    Stops (op.precedence + 1) (l :: rest) := by
  intro l' hl' sign hsign
  cases hl'
  rw [hl] at hsign
  cases hsign
  exact ⟨op, Operator.ofSign?_sign op, Nat.lt_succ_self _⟩

theorem Reaches.parens {room : Nat} {ls : List Lexeme} {l l' : Lexeme} {e : Expr}
    (h : Reaches b room 1 ls e) (hl : l.token = .leftParen) (hl' : l'.token = .rightParen) :
    Reaches b (room + 1) 3 (l :: (ls ++ [l'])) e := by
  intro rest _
  have hclosing : Stops 1 (l' :: rest) := stops_of_ne_op (by simp [hl'])
  have hinput : l :: (ls ++ [l']) ++ rest = l :: (ls ++ l' :: rest) := by
    simp
  rw [hinput]
  exact takes_atom_parens hl hl' (h.takes hclosing)

/-- The left operand is followed by an operator of its level, so the chain goes on behind it. -/
theorem Reaches.chain {room : Nat} {op : Operator} {ls rs : List Lexeme} {sign : Lexeme}
    {left right : Expr} (hleft : Reaches b room op.precedence ls left)
    (hsign : sign.token = .op op.sign) (hright : Reaches b room (op.precedence + 1) rs right)
    (hdepth : (Expr.binary op left right).depth ≤ b.limit) :
    Reaches b room op.precedence (ls ++ sign :: rs) (.binary op left right) := by
  intro rest hrest
  rw [depth_binary] at hdepth
  rcases hleft (sign :: (rs ++ rest)) (stops_op hsign) with ⟨hshorter, hread⟩
  have hlevel : op.precedence < 3 := by
    cases op <;> decide
  rw [continueFrom, if_pos hlevel] at hread
  rcases chainFrom_cons ⟨left, left.depth⟩ hshorter hsign (hright.takes hrest) hdepth with
    ⟨hshorter, hchain⟩
  have hinput : ls ++ sign :: rs ++ rest = ls ++ sign :: (rs ++ rest) := by
    simp
  rw [hinput, depth_binary]
  refine ⟨hshorter, ?_⟩
  rw [continueFrom, if_pos hlevel]
  exact hread.trans hchain

/-- Every derived sequence within the limits is read. -/
theorem reaches_of_derives {ts : List Token} {e : Expr} (h : Derives level ts e) {room : Nat}
    {ls : List Lexeme} (hls : tokens ls = ts) (hdepth : e.depth ≤ b.limit)
    (hnesting : nesting ts ≤ room) : Reaches b room level ls e := by
  induction h generalizing room ls with
  | name x =>
      rcases List.map_eq_cons_iff.1 hls with ⟨l, ls', rfl, hl, hnil⟩
      cases List.map_eq_nil_iff.1 hnil
      have hvar : (Expr.var x).depth = 0 := by
        simp [Expr.depth_eq_height, Expr.height]
      intro rest _
      rw [hvar]
      exact takes_atom_name hl
  | @parens ts e hinner ih =>
      rw [nesting_enclosed hinner.balanced] at hnesting
      rcases Nat.exists_eq_add_of_le' hnesting with ⟨spare, rfl⟩
      rcases List.map_eq_cons_iff.1 hls with ⟨l, ls, rfl, hl, hls⟩
      rcases List.map_eq_append_iff.1 hls with ⟨ls, closing, rfl, hinside, hclosing⟩
      rcases List.map_eq_cons_iff.1 hclosing with ⟨l', ls', rfl, hl', hnil⟩
      cases List.map_eq_nil_iff.1 hnil
      -- the parentheses inside need one less
      have hreaches : Reaches b (spare + nesting ts) 1 ls e := ih hinside hdepth (by omega)
      exact hreaches.parens hl hl'
  | atom _ ih =>
      intro rest hrest
      exact chain_of_takes ((ih hls hdepth hnesting).takes hrest)
  | term _ ih =>
      intro rest hrest
      exact chain_of_takes ((ih hls hdepth hnesting).takes hrest)
  | @chain op ts us l r hl _ ihl ihr =>
      have hdepths := hdepth
      rw [depth_binary] at hdepths
      rw [nesting_append hl.balanced, nesting_cons fun _ => rfl, Nat.max_le] at hnesting
      rcases List.map_eq_append_iff.1 hls with ⟨left, later, rfl, hleft, hlater⟩
      rcases List.map_eq_cons_iff.1 hlater with ⟨sign, right, rfl, hsign, hright⟩
      have hreachl := ihl hleft (by omega) hnesting.1
      have hreachr := ihr hright (by omega) hnesting.2
      exact hreachl.chain hsign hreachr hdepth

end Complete

/-! ## Expressions and functions -/

/-- The tokens are derived within the limit, and the counted depth is that of the tree. -/
def Counted (limit : Nat) (ts : List Token) (m : Measured) : Prop :=
  Within limit ts m.expr ∧ m.depth = m.expr.depth

/-- The reader for expressions reads those within the limit, and counts their depths. -/
theorem exact_measured (b : Bounds) : Exact (measured b) (Counted b.limit) where
  sound := by
    intro input rest m h
    rcases sound_expressionOf (sound_atom b b.limit) h with ⟨ls, hinput, hls⟩
    exact ⟨ls, hinput, ⟨hls.derives, hls.limited, hls.nested⟩, hls.depth⟩
  complete := by
    rintro ls rest ⟨e, depth⟩ ⟨⟨hderives, hdepth, hnesting⟩, hcount⟩ hrest
    obtain rfl : depth = e.depth := hcount
    have hstops : Stops 1 rest := by
      cases rest with
      | nil =>
          cases hrest
      | cons l later =>
          have hl : l.token = .semicolon := by
            simpa [nextIs] using hrest
          exact stops_of_ne_op (by simp [hl])
    exact (reaches_of_derives (b := b) hderives rfl hdepth hnesting).takes hstops

theorem exact_expression (b : Bounds) : Exact (expression b) (Within b.limit) where
  sound := by
    rintro input rest e ⟨_, h⟩
    rcases except_bind_eq_ok.1 h with ⟨c, hread, hdone⟩
    cases hdone
    rcases (exact_measured b).sound (takes_iff.1 hread) with ⟨ls, hinput, hls, _⟩
    exact ⟨ls, hinput, hls⟩
  complete := by
    intro ls rest e hwithin hrest
    rcases (exact_measured b).complete (a := ⟨e, e.depth⟩) ⟨hwithin, rfl⟩ hrest with
      ⟨hshorter, hread⟩
    exact ⟨hshorter, except_bind_eq_ok.2 ⟨_, hread, rfl⟩⟩

theorem function_eq_ok {limit stop : Nat} {input : List Lexeme} {f : Function} :
    function limit stop input = .ok f ↔ IsFunction (tokens input) f ∧
      (∀ e ∈ f.exprs, e.depth ≤ limit) ∧ nesting (fromBrace (tokens input)) ≤ limit := by
  have hreader : ∀ name, Exact (expression ⟨name, limit, stop⟩) (Within limit) :=
    fun name => exact_expression ⟨name, limit, stop⟩
  rw [function, program_eq_ok hreader hreader]
  exact isProgram_within_iff

end Parser

open StraightLine.Parser Grammar

/-- The same tokens are no two functions. -/
theorem IsFunction.unique {ts : List Token} {f g : Function} (hf : IsFunction ts f)
    (hg : IsFunction ts g) : f = g := by
  have hbound : ∃ limit, (∀ e ∈ f.exprs ++ g.exprs, e.depth ≤ limit) ∧
      nesting (fromBrace ts) ≤ limit := by
    refine ⟨(nesting (fromBrace ts) :: (f.exprs ++ g.exprs).map Expr.depth).max?.getD 0, ?_, ?_⟩
    · exact fun e he =>
        List.le_max?_getD_of_mem (List.mem_cons_of_mem _ (List.mem_map_of_mem he))
    · exact List.le_max?_getD_of_mem List.mem_cons_self
  rcases hbound with ⟨limit, hdepths, hnesting⟩
  rw [List.forall_mem_append] at hdepths
  have hinput : tokens (ts.map fun t => ⟨t, 0, 0⟩) = ts := by
    simp [tokens, Function.comp_def]
  rw [← hinput] at hf hg hnesting
  have hreadf : Parser.function limit 0 _ = .ok f :=
    Parser.function_eq_ok.2 ⟨hf, hdepths.1, hnesting⟩
  have hreadg : Parser.function limit 0 _ = .ok g :=
    Parser.function_eq_ok.2 ⟨hg, hdepths.2, hnesting⟩
  exact Except.ok.inj (hreadf.symm.trans hreadg)

theorem parse_eq_ok {limit : Nat} {source : String} {f : Function} :
    parse limit source = .ok f ↔
      ∃ lexemes, Token.scan source = .ok lexemes ∧ IsFunction (tokens lexemes) f ∧
        (∀ e ∈ f.exprs, e.depth ≤ limit) ∧ nesting (fromBrace (tokens lexemes)) ≤ limit := by
  unfold parse StraightLine.Parser.parse
  cases Token.scan source with
  | error stray =>
      simp
  | ok lexemes =>
      simp [Parser.function_eq_ok]

end Calc

end StraightLine
