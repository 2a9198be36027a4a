import Mathlib.Data.List.Basic
import StraightLine.Proofs.Calc.Parser
import StraightLine.Proofs.Grammar.Prefix
import StraightLine.Proofs.Parser.Faults
import StraightLine.Proofs.Tac.Parser

/-!
# Faults — a syntax error blames the first impossible token

The readers for expressions and for three-address values go with their acceptors, so that the
parsers of both languages do. In an expression a reader stops before an operator that binds too
weakly for it; the reader around it goes on there, and the acceptor does not notice the difference.

* `Calc.Parser.goesWith_expression` — expressions;
* `Tac.Parser.goesWith_value`, `Tac.Parser.goesWith_result` — right-hand sides and results;
* `Parser.blames_of_fault` — the offset in every syntax error of either parser.
-/

namespace StraightLine

/-! ## Calc -/

namespace Calc

namespace Parser

open StraightLine.Parser Grammar

/-- An operator that follows binds more weakly than the level. -/
def Below (level : Nat) (rest : List Lexeme) : Prop :=
  ∀ l ∈ rest.head?, ∀ op : Operator, l.token = .op op.sign → op.precedence < level

/-- Inside any number of open parentheses the reader goes with the acceptor. -/
structure Goes (b : Bounds) (level : Nat) (reader : Reader Measured) : Prop where
  takes : ∀ (k : Nat) {input rest : List Lexeme} {m : Measured}, Takes reader input rest m →
    ∃ ls, input = ls ++ rest ∧ acceptor.Run (.operand k) (tokens ls) (.operator k) ∧
      Below level rest
  fault : ∀ (k : Nat) {input : List Lexeme} {offset : Nat} {f : SyntaxFault},
    reader input = .error (.syntaxFault offset f) →
      ∃ p, Halts acceptor b.stop (.operand k) input offset p ∧ acceptor.final p = false

section Goes

variable {b : Bounds} {level offset : Nat} {operand : Reader Measured} {input : List Lexeme}
  {fault : SyntaxFault}

theorem acceptor_step_sign {l : Lexeme} {sign : Char} {op : Operator} (hl : l.token = .op sign)
    (hop : Operator.ofSign? sign = some op) (k : Nat) :
    acceptor.step (.operator k) l.token = some (.operand k) := by
  rw [hl, Operator.ofSign?_eq_some hop]
  exact acceptor_step_op k op

/-- Behind an expression only an operator or a parenthesis is read. -/
theorem acceptor_refuses {k : Nat} {l : Lexeme}
    (hbelow : ∀ op : Operator, l.token = .op op.sign → op.precedence < 1)
    (hparen : l.token ≠ .rightParen) : acceptor.step (.operator k) l.token = none := by
  cases ht : l.token with
  | op sign =>
      cases hop : Operator.ofSign? sign with
      | none =>
          simp [acceptor, hop]
      | some op =>
          rw [Operator.ofSign?_eq_some hop] at ht
          have hlt := hbelow op ht
          cases op <;> simp [Operator.precedence] at hlt
  | rightParen =>
      exact absurd ht hparen
  | _ =>
      rfl

theorem run_of_chainFrom (hoperand : Goes b (level + 1) operand) (k : Nat)
    {left c : Consumed Measured input} (hleft : Below (level + 1) left.rest)
    (h : chainFrom b operand level left = .ok c) :
    ∃ ls, left.rest = ls ++ c.rest ∧ acceptor.Run (.operator k) (tokens ls) (.operator k) ∧
      Below level c.rest := by
  fun_induction chainFrom b operand level left with
  | case1 left hrest =>
      cases h
      exact ⟨[], rfl, .nil _, by simp [Below, hrest]⟩
  | case2 | case3 | case4 =>
      cases h
  | case5 left l rest hrest sign hl op hop hlevel right hright joined hjoin ih =>
      rcases hoperand.takes k (takes_iff.1 hright) with ⟨rs, hrs, hrun, hbelow⟩
      rcases ih hbelow h with ⟨ls, hls, hruns, hstops⟩
      refine ⟨l :: (rs ++ ls), ?_, ?_, hstops⟩
      · rw [hrest, hrs, List.cons_append, List.append_assoc]
        exact congrArg (fun later => l :: (rs ++ later)) hls
      · have hlater := hrun.append hruns
        rw [← tokens_append] at hlater
        exact .cons (acceptor_step_sign hl hop k) hlater
  | case6 left l rest hrest sign hl op hop hlevel =>
      cases h
      refine ⟨[], rfl, .nil _, ?_⟩
      intro l' hl' op' hop'
      -- the operator is of no level from here on
      have hlt := hleft l' hl' op' hop'
      rw [hrest] at hl'
      cases hl'
      rw [hl] at hop'
      cases hop'
      rw [Operator.ofSign?_sign] at hop
      cases hop
      omega
  | case7 left l rest hrest hl =>
      -- what follows is no operator at all
      cases h
      refine ⟨[], rfl, .nil _, ?_⟩
      intro l' hl' op' hop'
      rw [hrest] at hl'
      cases hl'
      exact absurd hop' (hl op'.sign)

theorem join_ne_fault {op : Operator} {left right : Measured} {rest : List Lexeme} :
    b.join op left right rest ≠ .error (.syntaxFault offset fault) := by
  intro h
  simp only [Bounds.join] at h
  split at h <;> cases h

theorem halts_chainFrom (hoperand : Goes b (level + 1) operand) (k : Nat)
    {left : Consumed Measured input}
    (h : chainFrom b operand level left = .error (.syntaxFault offset fault)) :
    ∃ p, Halts acceptor b.stop (.operator k) left.rest offset p ∧ acceptor.final p = false := by
  fun_induction chainFrom b operand level left with
  | case1 | case2 | case6 | case7 =>
      cases h
  | case3 left l rest hrest sign hl op hop hlevel e hright =>
      cases h
      rcases hoperand.fault k hright with ⟨p, hhalts, hfinal⟩
      rw [hrest]
      exact ⟨p, hhalts.cons rfl (acceptor_step_sign hl hop k), hfinal⟩
  | case4 left l rest hrest sign hl op hop hlevel right hright e hjoin =>
      -- a tree that is too high is no syntax error
      cases h
      exact absurd hjoin join_ne_fault
  | case5 left l rest hrest sign hl op hop hlevel right hright joined hjoin ih =>
      rcases hoperand.takes k (takes_iff.1 hright) with ⟨rs, hrs, hrun, _⟩
      rcases ih h with ⟨p, hhalts, hfinal⟩
      have hlater := (hhalts.after hrun).cons rfl (acceptor_step_sign hl hop k)
      rw [hrest, hrs]
      exact ⟨p, hlater, hfinal⟩

theorem goes_chain (hoperand : Goes b (level + 1) operand) :
    Goes b level (chain b operand level) where
  takes := by
    rintro k input rest m ⟨_, h⟩
    unfold chain at h
    split at h
    · cases h
    · next first hfirst =>
        rcases hoperand.takes k (takes_iff.1 hfirst) with ⟨ls, hls, hrun, hbelow⟩
        rcases run_of_chainFrom hoperand k hbelow h with ⟨more, hmore, hruns, hstops⟩
        refine ⟨ls ++ more, ?_, ?_, hstops⟩
        · rw [List.append_assoc, ← hmore]
          exact hls
        · rw [tokens_append]
          exact hrun.append hruns
  fault := by
    intro k input offset f h
    unfold chain at h
    split at h
    · next e hfirst =>
        cases h
        exact hoperand.fault k hfirst
    · next first hfirst =>
        rcases hoperand.takes k (takes_iff.1 hfirst) with ⟨ls, hls, hrun, _⟩
        rcases halts_chainFrom hoperand k h with ⟨p, hhalts, hfinal⟩
        rw [hls]
        exact ⟨p, hhalts.after hrun, hfinal⟩

theorem goes_expressionOf {reader : Reader Measured} (h : Goes b 3 reader) :
    Goes b 1 (expressionOf b reader) :=
  goes_chain (goes_chain h)

theorem below_three (rest : List Lexeme) : Below 3 rest := by
  intro l _ op _
  cases op <;> decide

theorem goes_atom_of {room : Nat} (hinner : ∀ r, room = r + 1 → Goes b 3 (atom b r)) :
    Goes b 3 (atom b room) where
  takes := by
    rintro k input rest m ⟨_, h⟩
    fun_induction atom b room input with
    | case1 | case3 | case5 =>
        cases h
    | case2 room l later name hl =>
        -- a name
        cases h
        refine ⟨[l], rfl, ?_, below_three _⟩
        rw [tokens, List.map_singleton, hl]
        exact .single rfl
    | case4 l later hl room =>
        -- an expression in parentheses, with one more of them open inside
        simp only [except_bind_eq_ok] at h
        rcases h with ⟨inner, hread, closing, hclosing, hdone⟩
        cases hdone
        have hgoes := goes_expressionOf (hinner room rfl)
        rcases hgoes.takes (k + 1) (takes_iff.1 hread) with ⟨ls, hlater, hrun, _⟩
        rcases takes_expect.1 (takes_iff.1 hclosing) with ⟨l', hl', hrest⟩
        refine ⟨l :: (ls ++ [l']), ?_, ?_, below_three _⟩
        · rw [hrest] at hlater
          refine (congrArg (l :: ·) hlater).trans ?_
          simp
        · have hclose : acceptor.Run (.operator (k + 1)) [.rightParen] (.operator k) := .single rfl
          have hinside := hrun.append hclose
          have hall : acceptor.Run (.operand k) (.leftParen :: (tokens ls ++ [.rightParen]))
              (.operator k) := .cons rfl hinside
          simpa [tokens, hl, hl'] using hall
  fault := by
    intro k input offset f h
    have hoperand : acceptor.final (.operand k) = false := by
      simp [acceptor]
    fun_induction atom b room input with
    | case1 =>
        cases h
        exact ⟨_, .here (by simp), hoperand⟩
    | case2 | case3 =>
        cases h
    | case4 l later hl room =>
        have hgoes := goes_expressionOf (hinner room rfl)
        have hopened : acceptor.step (.operand k) .leftParen = some (.operand (k + 1)) := rfl
        simp only [except_bind_eq_error] at h
        rcases h with hread | ⟨inner, hread, hclosing | ⟨closing, _, hdone⟩⟩
        · rcases hgoes.fault (k + 1) hread with ⟨p, hhalts, hfinal⟩
          exact ⟨p, hhalts.cons hl hopened, hfinal⟩
        · -- behind the expression stands neither an operator nor the closing parenthesis
          rcases hgoes.takes (k + 1) (takes_iff.1 hread) with ⟨ls, hlater, hrun, hbelow⟩
          have hhalts : Halts acceptor b.stop (.operator (k + 1)) inner.rest offset
              (.operator (k + 1)) := by
            apply halts_expect hclosing
            exact fun l' hl' => acceptor_refuses (hbelow l' hl')
          rw [hlater]
          exact ⟨_, (hhalts.after hrun).cons hl hopened, by simp [acceptor]⟩
        · cases hdone
    | case5 room l later hname hparen =>
        cases h
        refine ⟨_, .here ?_, hoperand⟩
        intro l' hl'
        cases hl'
        cases ht : l.token with
        | ident x => exact absurd ht (hname x)
        | leftParen => exact absurd ht hparen
        | _ => rfl

theorem goes_atom (b : Bounds) (room : Nat) : Goes b 3 (atom b room) := by
  induction room with
  | zero =>
      exact goes_atom_of fun r hr => by omega
  | succ room ih =>
      refine goes_atom_of fun r hr => ?_
      cases hr
      exact ih

end Goes

theorem goesWith_expression (b : Bounds) : GoesWith b.stop (expression b) acceptor where
  takes := by
    rintro input rest e ⟨_, h⟩
    rcases except_bind_eq_ok.1 h with ⟨read, hread, hdone⟩
    cases hdone
    have hgoes := goes_expressionOf (goes_atom b b.limit)
    rcases hgoes.takes 0 (takes_iff.1 hread) with ⟨ls, hls, hrun, hbelow⟩
    refine ⟨ls, _, hls, hrun, rfl, ?_⟩
    intro l hl
    by_cases hparen : l.token = .rightParen
    · rw [hparen]
      rfl
    · exact acceptor_refuses (hbelow l hl) hparen
  fault := by
    intro input offset f h
    rcases except_bind_eq_error.1 h with hread | ⟨read, _, hdone⟩
    · exact (goes_expressionOf (goes_atom b b.limit)).fault 0 hread
    · cases hdone

theorem refuses_function {limit stop offset : Nat} {input : List Lexeme} {fault : SyntaxFault}
    (h : function limit stop input = .error (.syntaxFault offset fault)) :
    Refuses (frame acceptor acceptor) stop .name input offset := by
  have hfollows : ∀ name, GoesWith stop (expression ⟨name, limit, stop⟩) acceptor :=
    fun name => goesWith_expression ⟨name, limit, stop⟩
  exact refuses_program leavesSemicolon_acceptor leavesSemicolon_acceptor hfollows hfollows h

end Parser

end Calc

/-! ## Tac -/

namespace Tac

namespace Parser

open StraightLine.Parser Grammar

variable {stop : Nat}

theorem operatorOf?_eq_ok_none {l : Lexeme} (h : operatorOf? l = .ok none) :
    valueAcceptor.step .operator l.token = none := by
  unfold operatorOf? at h
  split at h
  · split at h <;> cases h
  · next hl =>
      cases ht : l.token with
      | op sign => exact absurd ht (hl sign)
      | _ => rfl

theorem operatorOf?_ne_fault {l : Lexeme} {offset : Nat} {f : SyntaxFault} :
    operatorOf? l ≠ .error (.syntaxFault offset f) := by
  intro h
  unfold operatorOf? at h
  split at h
  · split at h <;> cases h
  · cases h

theorem run_left {l : Lexeme} {x : String} (hl : l.token = .ident x) :
    valueAcceptor.Run .left (tokens [l]) .operator := by
  rw [tokens, List.map_singleton, hl]
  exact .single rfl

/-- Where an operand or a result has to stand, nothing but a name is read. -/
theorem refuses_of_ne_ident {t : Token} (ht : ∀ x, t ≠ .ident x) :
    valueAcceptor.step .left t = none ∧ valueAcceptor.step .right t = none ∧
      resultAcceptor.step false t = none := by
  cases t with
  | ident x =>
      exact absurd rfl (ht x)
  | _ =>
      exact ⟨rfl, rfl, rfl⟩

theorem goesWith_value : GoesWith stop (value stop) valueAcceptor where
  takes := by
    rintro input rest v ⟨_, h⟩
    rcases except_bind_eq_ok.1 h with ⟨left, hleft, h⟩
    rcases takes_identifier.1 (takes_iff.1 hleft) with ⟨l, hl, hinput⟩
    split at h
    · next hrest =>
        cases h
        exact ⟨[l], .operator, hinput, run_left hl, rfl, by simp [hrest]⟩
    · next l' later hrest =>
        rcases except_bind_eq_ok.1 h with ⟨operator, hoperator, h⟩
        cases operator with
        | none =>
            cases h
            refine ⟨[l], .operator, hinput, run_left hl, rfl, ?_⟩
            intro l'' hl''
            rw [hrest] at hl''
            cases hl''
            exact operatorOf?_eq_ok_none hoperator
        | some op =>
            rcases except_bind_eq_ok.1 h with ⟨right, hright, h⟩
            cases h
            rcases takes_identifier.1 (takes_iff.1 hright) with ⟨l'', hl'', hlater⟩
            have hsign : valueAcceptor.step .operator (.op op.sign) = some .right := by
              simp [valueAcceptor]
            have hrun : valueAcceptor.Run .left (tokens [l, l', l'']) .full := by
              simp only [tokens, List.map_cons, List.map_nil, hl, operatorOf?_eq_ok hoperator, hl'']
              exact .cons rfl (.cons hsign (.single rfl))
            refine ⟨[l, l', l''], .full, ?_, hrun, rfl, fun _ _ => rfl⟩
            exact hinput.trans (congrArg (l :: ·) (hrest.trans (congrArg (l' :: ·) hlater)))
  fault := by
    intro input offset f h
    rcases except_bind_eq_error.1 h with hleft | ⟨left, hleft, h⟩
    · exact ⟨.left, halts_identifier hleft fun _ _ ht => (refuses_of_ne_ident ht).1, rfl⟩
    rcases takes_identifier.1 (takes_iff.1 hleft) with ⟨l, hl, hinput⟩
    split at h
    · cases h
    · next l' later hrest =>
        rcases except_bind_eq_error.1 h with hoperator | ⟨operator, hoperator, h⟩
        · -- a sign without a meaning is another kind of error
          exact absurd hoperator operatorOf?_ne_fault
        cases operator with
        | none =>
            cases h
        | some op =>
            have hsign : valueAcceptor.step .operator (.op op.sign) = some .right := by
              simp [valueAcceptor]
            rcases except_bind_eq_error.1 h with hright | ⟨right, _, hdone⟩
            · -- an operator promises one more name
              have hhalts : Halts valueAcceptor stop .right later offset .right :=
                halts_identifier hright fun _ _ ht => (refuses_of_ne_ident ht).2.1
              have hlater := hhalts.cons (operatorOf?_eq_ok hoperator) hsign
              rw [← hrest] at hlater
              rw [hinput]
              exact ⟨.right, hlater.cons hl rfl, rfl⟩
            · cases hdone

theorem goesWith_result : GoesWith stop (identifier stop) resultAcceptor where
  takes := by
    intro input rest x h
    rcases takes_identifier.1 h with ⟨l, hl, hinput⟩
    refine ⟨[l], true, hinput, ?_, rfl, fun _ _ => rfl⟩
    rw [tokens, List.map_singleton, hl]
    exact .single rfl
  fault := by
    intro input offset f h
    exact ⟨false, halts_identifier h fun _ _ ht => (refuses_of_ne_ident ht).2.2, rfl⟩

theorem refuses_function {offset : Nat} {input : List Lexeme} {fault : SyntaxFault}
    (h : function stop input = .error (.syntaxFault offset fault)) :
    Refuses (frame valueAcceptor resultAcceptor) stop .name input offset :=
  refuses_program leavesSemicolon_valueAcceptor leavesSemicolon_resultAcceptor
    (fun _ => goesWith_value) (fun _ => goesWith_result) h

end Parser

end Tac

/-! ## Whole texts -/

namespace Parser

open Grammar

/-- A syntax error in a text that can be scanned blames its first impossible token, for either
language and under every limit. -/
theorem blames_of_fault {source : String} {lexemes : List Lexeme}
    (hscan : Token.scan source = .ok lexemes) :
    (∀ limit offset fault, Calc.parse limit source = .error (.syntaxFault offset fault) →
      Blames Calc.IsFunction source.utf8ByteSize lexemes offset) ∧
    ∀ offset fault, Tac.parse source = .error (.syntaxFault offset fault) →
      Blames Tac.IsFunction source.utf8ByteSize lexemes offset := by
  constructor
  · intro limit offset fault h
    simp only [Calc.parse, parse, hscan] at h
    exact blames_of_refuses Calc.recognizes_function (Calc.Parser.refuses_function h)
  · intro offset fault h
    simp only [Tac.parse, parse, hscan] at h
    exact blames_of_refuses Tac.recognizes_function (Tac.Parser.refuses_function h)

/-- A parenthesis that is not closed: one language misses the other parenthesis, the other has no
use for the first. -/
theorem blames_of_fault_unclosed :
    let source := "f(a)\x7b return (a \x7d"
    ∃ lexemes, Token.scan source = .ok lexemes ∧
      Calc.parse Calc.defaultMaxDepth source =
        .error (.syntaxFault 16 (.expected (.token .rightParen) (some .rightBrace))) ∧
      Blames Calc.IsFunction source.utf8ByteSize lexemes 16 ∧
      Tac.parse source = .error (.syntaxFault 13 (.expected .identifier (some .leftParen))) ∧
      Blames Tac.IsFunction source.utf8ByteSize lexemes 13 := by
  intro source
  have hscan : Token.scan source = .ok
      [⟨.ident "f", 0, 1⟩, ⟨.leftParen, 1, 2⟩, ⟨.ident "a", 2, 3⟩, ⟨.rightParen, 3, 4⟩,
        ⟨.leftBrace, 4, 5⟩, ⟨.returnWord, 6, 12⟩, ⟨.leftParen, 13, 14⟩, ⟨.ident "a", 14, 15⟩,
        ⟨.rightBrace, 16, 17⟩] := by
    decide +kernel
  have hcalc : Calc.parse Calc.defaultMaxDepth source =
      .error (.syntaxFault 16 (.expected (.token .rightParen) (some .rightBrace))) := by
    decide +kernel
  have htac : Tac.parse source =
      .error (.syntaxFault 13 (.expected .identifier (some .leftParen))) := by
    decide +kernel
  exact ⟨_, hscan, hcalc, (blames_of_fault hscan).1 _ _ _ hcalc, htac,
    (blames_of_fault hscan).2 _ _ htac⟩

end Parser

end StraightLine
