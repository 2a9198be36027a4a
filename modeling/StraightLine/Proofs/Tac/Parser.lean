import StraightLine.Proofs.Parser
import StraightLine.Tac.Parser

/-!
# Tac.Parser — three-address functions are read exactly

A right-hand side is a name, and goes on only if an operator follows. Behind a derived right-hand
side stands a semicolon, so the reader takes neither more nor less than was derived.

* `Tac.Parser.exact_value`, `Tac.Parser.exact_result` — both readers agree with the grammar;
* `Tac.parse_eq_ok` — which texts are functions for the parser, and which functions they are.
-/

namespace StraightLine

namespace Tac

namespace Parser

open StraightLine.Parser Grammar

section Value

variable {stop : Nat} {rest later : List Lexeme} {l : Lexeme} {x y : String}

/-- A name without an operator behind it is a right-hand side. -/
theorem takes_copy (hl : l.token = .ident x)
    (hrest : ∀ l' ∈ rest.head?, operatorOf? l' = .ok none) :
    Takes (value stop) (l :: rest) rest (.copy x) := by
  refine ⟨by simp, ?_⟩
  apply except_bind_eq_ok.2
  refine ⟨_, identifier_cons hl, ?_⟩
  dsimp only [Consumed.head]
  cases rest with
  | nil =>
      rfl
  | cons l' rest =>
      exact except_bind_eq_ok.2 ⟨none, hrest l' rfl, rfl⟩

/-- An operator promises one more name. -/
theorem takes_binary {op : Operator} {l' l'' : Lexeme} (hl : l.token = .ident x)
    (hl' : l'.token = .op op.sign) (hl'' : l''.token = .ident y) :
    Takes (value stop) (l :: l' :: l'' :: rest) rest (.binary op x y) := by
  have hoperator : operatorOf? l' = .ok (some op) := by
    simp [operatorOf?, hl']
  refine ⟨by simp; omega, ?_⟩
  apply except_bind_eq_ok.2
  refine ⟨_, identifier_cons hl, ?_⟩
  dsimp only [Consumed.head]
  apply except_bind_eq_ok.2
  refine ⟨some op, hoperator, ?_⟩
  exact except_bind_eq_ok.2 ⟨_, identifier_cons hl'', rfl⟩

theorem operatorOf?_eq_ok {l : Lexeme} {op : Operator} (h : operatorOf? l = .ok (some op)) :
    l.token = .op op.sign := by
  unfold operatorOf? at h
  split at h
  · next sign hl =>
      split at h
      · next op' hop =>
          cases h
          rw [hl, Operator.ofSign?_eq_some hop]
      · cases h
  · cases h

/-- What is read is derived, with or without an operator. -/
theorem sound_value {input : List Lexeme} {v : Value} (h : Takes (value stop) input rest v) :
    ∃ ls, input = ls ++ rest ∧ Derives (tokens ls) v := by
  rcases h with ⟨_, h⟩
  rcases except_bind_eq_ok.1 h with ⟨left, hleft, h⟩
  rcases takes_identifier.1 (takes_iff.1 hleft) with ⟨l, hl, hinput⟩
  split at h
  · next hrest =>
      cases h
      refine ⟨[l], hinput, ?_⟩
      rw [tokens, List.map_singleton, hl]
      exact .copy _
  · next l' later hrest =>
      rcases except_bind_eq_ok.1 h with ⟨operator, hoperator, h⟩
      cases operator with
      | none =>
          cases h
          refine ⟨[l], hinput, ?_⟩
          rw [tokens, List.map_singleton, hl]
          exact .copy _
      | some op =>
          rcases except_bind_eq_ok.1 h with ⟨right, hright, h⟩
          cases h
          rcases takes_identifier.1 (takes_iff.1 hright) with ⟨l'', hl'', hlater⟩
          refine ⟨[l, l', l''], ?_, ?_⟩
          · exact hinput.trans (congrArg (l :: ·) (hrest.trans (congrArg (l' :: ·) hlater)))
          · simp only [tokens, List.map_cons, List.map_nil, hl, operatorOf?_eq_ok hoperator, hl'']
            exact .binary op _ _

end Value

theorem exact_value (stop : Nat) : Exact (value stop) Derives where
  sound := sound_value
  complete := by
    intro ls rest v h hrest
    generalize hls : tokens ls = ts at h
    cases h with
    | copy x =>
        rcases List.map_eq_cons_iff.1 hls with ⟨l, ls', rfl, hl, hnil⟩
        cases List.map_eq_nil_iff.1 hnil
        refine takes_copy hl ?_
        intro l' hl'
        cases rest with
        | nil =>
            cases hl'
        | cons l'' rest =>
            cases hl'
            -- where a semicolon follows, no operator does
            have hsemicolon : l'.token = .semicolon := by
              simpa [nextIs] using hrest
            simp [operatorOf?, hsemicolon]
    | binary op x y =>
        rcases List.map_eq_cons_iff.1 hls with ⟨l, ls, rfl, hl, hls⟩
        rcases List.map_eq_cons_iff.1 hls with ⟨l', ls, rfl, hl', hls⟩
        rcases List.map_eq_cons_iff.1 hls with ⟨l'', ls, rfl, hl'', hnil⟩
        cases List.map_eq_nil_iff.1 hnil
        exact takes_binary hl hl' hl''

theorem exact_result (stop : Nat) : Exact (identifier stop) DerivesResult where
  sound := by
    intro input rest x h
    rcases takes_identifier.1 h with ⟨l, hl, rfl⟩
    refine ⟨[l], rfl, ?_⟩
    rw [tokens, List.map_singleton, hl]
    exact .name x
  complete := by
    intro ls rest x h _
    generalize hls : tokens ls = ts at h
    cases h
    rcases List.map_eq_cons_iff.1 hls with ⟨l, ls', rfl, hl, hnil⟩
    cases List.map_eq_nil_iff.1 hnil
    exact takes_identifier.2 ⟨l, hl, rfl⟩

theorem function_eq_ok {stop : Nat} {input : List Lexeme} {f : Function} :
    function stop input = .ok f ↔ IsFunction (tokens input) f :=
  program_eq_ok (fun _ => exact_value stop) (fun _ => exact_result stop)

end Parser

open Grammar

theorem parse_of_scan {source : String} {lexemes : List Lexeme}
    (h : Token.scan source = .ok lexemes) {f : Function} :
    parse source = .ok f ↔ IsFunction (tokens lexemes) f := by
  simp only [parse, StraightLine.Parser.parse, h]
  exact Parser.function_eq_ok

end Tac

end StraightLine
