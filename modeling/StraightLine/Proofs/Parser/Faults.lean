import StraightLine.Proofs.Grammar.Acceptor
import StraightLine.Proofs.Parser

/-!
# Faults — the frame gives up where its acceptor does

A reader looks at one token at a time, and takes it only if the acceptor of the grammar does. Where
it gives up, the acceptor refuses the next token. So what was read up to there can be completed to a
function, and no function goes on with the token that is blamed.

* `Parser.Halts`, `Parser.Refuses` — an acceptor reads up to a token that it refuses;
* `Parser.GoesWith` — a reader goes with an acceptor and stops where it does;
* `Parser.refuses_program` — the frame goes with its acceptor;
* `Parser.Blames`, `Parser.blames_of_refuses` — the offset of the first impossible token.
-/

namespace StraightLine

namespace Parser

open Grammar

/-- The acceptor reads from `s` up to a lexeme that it refuses in `s'`, or up to the end, and
`offset` is where this lexeme starts or the source ends. -/
def Halts {S : Type} (m : Acceptor S) (stop : Nat) (s : S) (input : List Lexeme) (offset : Nat)
    (s' : S) : Prop :=
  ∃ ls rest, input = ls ++ rest ∧ m.Run s (tokens ls) s' ∧ offset = offsetOf stop rest ∧
    ∀ l ∈ rest.head?, m.step s' l.token = none

/-- The acceptor gets no further than to `offset`. -/
def Refuses {S : Type} (m : Acceptor S) (stop : Nat) (s : S) (input : List Lexeme) (offset : Nat) :
    Prop :=
  ∃ s', Halts m stop s input offset s'

section Halts

variable {S : Type} {m : Acceptor S} {stop offset : Nat} {s s' s'' : S} {input rest : List Lexeme}
  {fault : SyntaxFault}

theorem Halts.here (h : ∀ l ∈ input.head?, m.step s l.token = none) :
    Halts m stop s input (offsetOf stop input) s :=
  ⟨[], input, rfl, .nil s, rfl, h⟩

theorem Halts.after {ls : List Lexeme} (hrun : m.Run s (tokens ls) s')
    (h : Halts m stop s' rest offset s'') : Halts m stop s (ls ++ rest) offset s'' := by
  rcases h with ⟨more, later, rfl, hmore, hoffset, hrefused⟩
  refine ⟨ls ++ more, later, by simp, ?_, hoffset, hrefused⟩
  rw [tokens_append]
  exact hrun.append hmore

theorem Halts.cons {l : Lexeme} {t : Token} (hl : l.token = t) (hstep : m.step s t = some s')
    (h : Halts m stop s' rest offset s'') : Halts m stop s (l :: rest) offset s'' := by
  have hrun : m.Run s (tokens [l]) s' := by
    rw [tokens, List.map_singleton, hl]
    exact .single hstep
  exact h.after hrun

theorem Refuses.after {ls : List Lexeme} (hinput : input = ls ++ rest)
    (hrun : m.Run s (tokens ls) s') (h : Refuses m stop s' rest offset) :
    Refuses m stop s input offset := by
  rcases h with ⟨s'', h⟩
  rw [hinput]
  exact ⟨s'', h.after hrun⟩

theorem Refuses.cons {l : Lexeme} {t : Token} (hinput : input = l :: rest) (hl : l.token = t)
    (hstep : m.step s t = some s') (h : Refuses m stop s' rest offset) :
    Refuses m stop s input offset := by
  rcases h with ⟨s'', h⟩
  rw [hinput]
  exact ⟨s'', h.cons hl hstep⟩

theorem expect_fault {t : Token} (h : expect stop t input = .error (.syntaxFault offset fault)) :
    offset = offsetOf stop input ∧ ∀ l ∈ input.head?, l.token ≠ t := by
  cases input with
  | nil =>
      cases h
      exact ⟨rfl, by simp⟩
  | cons l later =>
      simp only [expect] at h
      split at h
      · cases h
      · next ht =>
          cases h
          exact ⟨rfl, by simpa using ht⟩

theorem identifier_fault (h : identifier stop input = .error (.syntaxFault offset fault)) :
    offset = offsetOf stop input ∧ ∀ l ∈ input.head?, ∀ x, l.token ≠ .ident x := by
  cases input with
  | nil =>
      cases h
      exact ⟨rfl, by simp⟩
  | cons l later =>
      simp only [identifier] at h
      split at h
      · cases h
      · next ht =>
          cases h
          exact ⟨rfl, by simpa using ht⟩

theorem halts_expect {t : Token} (h : expect stop t input = .error (.syntaxFault offset fault))
    (hs : ∀ l ∈ input.head?, l.token ≠ t → m.step s l.token = none) :
    Halts m stop s input offset s := by
  rcases expect_fault h with ⟨rfl, hne⟩
  exact .here fun l hl => hs l hl (hne l hl)

theorem halts_identifier (h : identifier stop input = .error (.syntaxFault offset fault))
    (hs : ∀ l ∈ input.head?, (∀ x, l.token ≠ .ident x) → m.step s l.token = none) :
    Halts m stop s input offset s := by
  rcases identifier_fault h with ⟨rfl, hne⟩
  exact .here fun l hl => hs l hl (hne l hl)

/-- Where one token is expected and no other is read. -/
theorem refuses_expect {t : Token} (h : expect stop t input = .error (.syntaxFault offset fault))
    (hs : ∀ u, u ≠ t → m.step s u = none) : Refuses m stop s input offset :=
  ⟨s, halts_expect h fun l _ => hs l.token⟩

theorem refuses_identifier (h : identifier stop input = .error (.syntaxFault offset fault))
    (hs : ∀ u, (∀ x, u ≠ .ident x) → m.step s u = none) : Refuses m stop s input offset :=
  ⟨s, halts_identifier h fun l _ => hs l.token⟩

end Halts

/-- What the reader takes leads to a final place of the acceptor, which refuses the next token.
What the reader refuses, the acceptor refuses at the same lexeme and before it is finished. -/
structure GoesWith {S α : Type} (stop : Nat) (reader : Reader α) (m : Acceptor S) : Prop where
  takes : ∀ {input rest : List Lexeme} {a : α}, Takes reader input rest a →
    ∃ ls s, input = ls ++ rest ∧ m.Run m.start (tokens ls) s ∧ m.final s = true ∧
      ∀ l ∈ rest.head?, m.step s l.token = none
  fault : ∀ {input : List Lexeme} {offset : Nat} {f : SyntaxFault},
    reader input = .error (.syntaxFault offset f) →
      ∃ s, Halts m stop m.start input offset s ∧ m.final s = false

/-! ## Header -/

section Header

variable {S T : Type} {m : Acceptor S} {n : Acceptor T} {stop offset : Nat}
  {input : List Lexeme} {fault : SyntaxFault}

theorem refuses_moreNames {found : List String}
    (h : moreNames stop found input = .error (.syntaxFault offset fault)) :
    Refuses (frame m n) stop .afterParam input offset := by
  fun_induction moreNames stop found input with
  | case1 | case4 | case5 =>
      cases h
  | case2 found l later hcomma e hname =>
      -- the comma is read, and the name behind it is missing
      cases h
      have hrefuses : Refuses (frame m n) stop .nextParam later offset := by
        apply refuses_identifier hname
        intro t ht
        cases t with
        | ident x => exact absurd rfl (ht x)
        | _ => rfl
      exact hrefuses.cons rfl hcomma rfl
  | case3 found l later hcomma name hname e hmore ih =>
      cases h
      rcases takes_identifier.1 (takes_iff.1 hname) with ⟨l', hl', hlater⟩
      have hnext : Refuses (frame m n) stop .nextParam later offset :=
        (ih hmore).cons hlater hl' rfl
      exact hnext.cons rfl hcomma rfl

theorem moreNames_stops {found : List String}
    {read : { read : List String × List Lexeme // read.2.length ≤ input.length }}
    (h : moreNames stop found input = .ok read) : ∀ l ∈ read.val.2.head?, l.token ≠ .comma := by
  fun_induction moreNames stop found input with
  | case1 =>
      cases h
      simp
  | case2 | case3 =>
      cases h
  | case4 found l later hcomma name hname more hmore ih =>
      cases h
      exact ih hmore
  | case5 found l later hcomma =>
      cases h
      simpa using hcomma

/-- Where the parameters end, only the closing parenthesis can follow. -/
theorem run_paramNames
    {read : { read : List String × List Lexeme // read.2.length ≤ input.length }}
    (h : paramNames stop input = .ok read) :
    ∃ ls p, input = ls ++ read.val.2 ∧ (frame m n).Run .firstParam (tokens ls) p ∧
      (frame m n).step p .rightParen = some .brace ∧
      ∀ l ∈ read.val.2.head?, l.token ≠ .rightParen → (frame m n).step p l.token = none := by
  unfold paramNames at h
  split at h
  · -- no parameters, so the parenthesis is already there
    next hparen =>
      cases h
      refine ⟨[], .firstParam, rfl, .nil _, rfl, ?_⟩
      intro l hl hne
      cases input with
      | nil =>
          cases hl
      | cons l' later =>
          cases hl
          exact absurd (beq_iff_eq.1 hparen) hne
  · split at h
    · cases h
    · next first hfirst =>
        split at h
        · cases h
        · next more hmore =>
            cases h
            rcases takes_identifier.1 (takes_iff.1 hfirst) with ⟨l, hl, hinput⟩
            rcases moreNames_sound hmore with ⟨ls, names, hrest, hls, _⟩
            refine ⟨l :: ls, .afterParam, hinput.trans (congrArg (l :: ·) hrest), ?_, rfl, ?_⟩
            · change (frame m n).Run .firstParam (l.token :: tokens ls) .afterParam
              rw [hl, hls]
              exact .cons rfl (run_moreTokens names)
            · -- a comma would have been read with the names
              intro l' hl' hne
              have hcomma := moreNames_stops hmore l' hl'
              cases ht : l'.token with
              | comma => exact absurd ht hcomma
              | rightParen => exact absurd ht hne
              | _ => rfl

theorem nextIs_head {t : Token} (h : nextIs t input ≠ true) : ∀ l ∈ input.head?, l.token ≠ t := by
  intro l hl ht
  cases input with
  | nil =>
      cases hl
  | cons l' later =>
      cases hl
      exact h (nextIs_cons ht later)

theorem refuses_paramNames (h : paramNames stop input = .error (.syntaxFault offset fault)) :
    Refuses (frame m n) stop .firstParam input offset := by
  unfold paramNames at h
  split at h
  · cases h
  · next hparen =>
      split at h
      · next e hfirst =>
          cases h
          refine ⟨.firstParam, halts_identifier hfirst ?_⟩
          intro l hl hident
          have hne := nextIs_head hparen l hl
          cases ht : l.token with
          | ident x => exact absurd ht (hident x)
          | rightParen => exact absurd ht hne
          | _ => rfl
      · next first hfirst =>
          split at h
          · next e hmore =>
              cases h
              rcases takes_identifier.1 (takes_iff.1 hfirst) with ⟨l, hl, hinput⟩
              exact (refuses_moreNames hmore).cons hinput hl rfl
          · cases h

theorem refuses_header (h : header stop input = .error (.syntaxFault offset fault)) :
    Refuses (frame m n) stop .name input offset := by
  simp only [header, except_bind_eq_error] at h
  rcases h with hword | ⟨word, hword, h⟩
  · apply refuses_identifier hword
    intro t ht
    cases t with
    | ident x => exact absurd rfl (ht x)
    | _ => rfl
  rcases takes_identifier.1 (takes_iff.1 hword) with ⟨l₁, hl₁, hinput⟩
  refine .cons hinput hl₁ rfl ?_
  rcases h with hopening | ⟨opening, hopening, h⟩
  · apply refuses_expect hopening
    intro t ht
    cases t with
    | leftParen => exact absurd rfl ht
    | _ => rfl
  rcases takes_expect.1 (takes_iff.1 hopening) with ⟨l₂, hl₂, hrest⟩
  refine .cons hrest hl₂ rfl ?_
  rcases h with hparams | ⟨params, hparams, h⟩
  · exact refuses_paramNames hparams
  rcases run_paramNames (m := m) (n := n) hparams with ⟨ls, p, hls, hrun, hstep, hrefused⟩
  refine .after hls hrun ?_
  rcases h with hclosing | ⟨closing, hclosing, h⟩
  · exact ⟨p, halts_expect hclosing hrefused⟩
  rcases takes_expect.1 (takes_iff.1 hclosing) with ⟨l₃, hl₃, hrest⟩
  refine .cons hrest hl₃ hstep ?_
  rcases h with hbrace | ⟨brace, hbrace, h⟩
  · apply refuses_expect hbrace
    intro t ht
    cases t with
    | leftBrace => exact absurd rfl ht
    | _ => rfl
  · cases h

end Header

/-! ## Body and result -/

section Body

variable {S T V R : Type} {m : Acceptor S} {n : Acceptor T} {stop offset : Nat}
  {input rest : List Lexeme} {fault : SyntaxFault} {value : Reader V} {result : Reader R}

/-- Inside a part of the frame, the acceptor of the part gives up, and no semicolon can follow
before it is finished. -/
theorem Halts.toSemicolon {S P : Type} {part : Acceptor S} {outer : Acceptor P} {inside : S → P}
    {after : P} {s s' : S}
    (houter : ∀ s t, outer.step (inside s) t = upToSemicolon part inside after s t)
    (hpart : part.LeavesSemicolon) (h : Halts part stop s input offset s')
    (hs' : part.final s' = false) : Refuses outer stop (inside s) input offset := by
  rcases h with ⟨ls, rest, hinput, hrun, hoffset, hrefused⟩
  refine ⟨inside s', ls, rest, hinput, hrun.around houter hpart, hoffset, ?_⟩
  intro l hl
  rw [houter]
  exact upToSemicolon_eq_none (hrefused l hl) fun _ => hs'

/-- A part that a semicolon has to follow. -/
theorem refuses_semicolon {S P α : Type} {part : Acceptor S} {outer : Acceptor P} {inside : S → P}
    {after : P} {reader : Reader α} {a : α}
    (houter : ∀ s t, outer.step (inside s) t = upToSemicolon part inside after s t)
    (hpart : part.LeavesSemicolon) (hreader : GoesWith stop reader part)
    (htakes : Takes reader input rest a)
    (h : expect stop .semicolon rest = .error (.syntaxFault offset fault)) :
    Refuses outer stop (inside part.start) input offset := by
  rcases hreader.takes htakes with ⟨ls, s, hinput, hrun, _, hrefused⟩
  refine .after hinput (hrun.around houter hpart) ⟨inside s, halts_expect h ?_⟩
  intro l hl hne
  rw [houter]
  exact upToSemicolon_eq_none (hrefused l hl) fun heq => absurd heq hne

theorem refuses_statement (hm : m.LeavesSemicolon) (hvalue : GoesWith stop value m)
    (hreturn : nextIs .returnWord input ≠ true)
    (h : statement stop value input = .error (.syntaxFault offset fault)) :
    Refuses (frame m n) stop .statement input offset := by
  simp only [statement, except_bind_eq_error] at h
  rcases h with hword | ⟨word, hword, h⟩
  · -- where a statement may start, the keyword may stand too, but then no statement is read
    refine ⟨.statement, halts_identifier hword ?_⟩
    intro l hl hident
    have hne := nextIs_head hreturn l hl
    cases ht : l.token with
    | ident x => exact absurd ht (hident x)
    | returnWord => exact absurd ht hne
    | _ => rfl
  rcases takes_identifier.1 (takes_iff.1 hword) with ⟨l₁, hl₁, hinput⟩
  refine .cons hinput hl₁ rfl ?_
  rcases h with hsign | ⟨sign, hsign, h⟩
  · apply refuses_expect hsign
    intro t ht
    cases t with
    | assign => exact absurd rfl ht
    | _ => rfl
  rcases takes_expect.1 (takes_iff.1 hsign) with ⟨l₂, hl₂, hrest⟩
  refine .cons hrest hl₂ rfl ?_
  rcases h with hread | ⟨read, hread, h⟩
  · rcases hvalue.fault hread with ⟨s, hhalts, hs⟩
    exact hhalts.toSemicolon (fun _ _ => rfl) hm hs
  rcases h with hsemicolon | ⟨semicolon, hsemicolon, h⟩
  · exact refuses_semicolon (fun _ _ => rfl) hm hvalue (takes_iff.1 hread) hsemicolon
  · cases h

/-- A statement that is read leads back to where statements start. -/
theorem run_of_statement (hm : m.LeavesSemicolon) (hvalue : GoesWith stop value m)
    {a : Assignment V} (h : Takes (statement stop value) input rest a) :
    ∃ ls, input = ls ++ rest ∧ (frame m n).Run .statement (tokens ls) .statement := by
  rcases h with ⟨_, h⟩
  simp only [statement, except_bind_eq_ok] at h
  rcases h with ⟨word, hword, sign, hsign, read, hread, semicolon, hsemicolon, hdone⟩
  cases hdone
  rcases takes_identifier.1 (takes_iff.1 hword) with ⟨l₁, hl₁, hinput⟩
  rcases takes_expect.1 (takes_iff.1 hsign) with ⟨l₂, hl₂, hword⟩
  rcases hvalue.takes (takes_iff.1 hread) with ⟨ls, s, hsign, hrun, hs, _⟩
  rcases takes_expect.1 (takes_iff.1 hsemicolon) with ⟨l₃, hl₃, hread⟩
  refine ⟨l₁ :: l₂ :: (ls ++ [l₃]), ?_, ?_⟩
  · rw [hread] at hsign
    rw [hsign] at hword
    rw [hword] at hinput
    simpa using hinput
  · have hall : (frame m n).Run .statement
        (.ident word.value :: .assign :: (tokens ls ++ [.semicolon])) .statement :=
      run_statement hm hrun hs word.value
    simpa [tokens, hl₁, hl₂, hl₃] using hall

theorem refuses_statements (hm : m.LeavesSemicolon) (hvalue : GoesWith stop value m)
    {found : List (Assignment V)}
    (h : statements stop value found input = .error (.syntaxFault offset fault)) :
    Refuses (frame m n) stop .statement input offset := by
  fun_induction statements stop value found input with
  | case1 =>
      cases h
  | case2 found input hreturn e hread =>
      cases h
      exact refuses_statement hm hvalue hreturn hread
  | case3 found input hreturn s hread ih =>
      rcases run_of_statement (n := n) hm hvalue (takes_iff.1 hread) with ⟨ls, hls, hrun⟩
      exact (ih h).after hls hrun

theorem run_of_statements (hm : m.LeavesSemicolon) (hvalue : GoesWith stop value m)
    {found body : List (Assignment V)} (h : statements stop value found input = .ok (body, rest)) :
    nextIs .returnWord rest = true ∧
      ∃ ls, input = ls ++ rest ∧ (frame m n).Run .statement (tokens ls) .statement := by
  fun_induction statements stop value found input with
  | case1 found input hreturn =>
      cases h
      exact ⟨hreturn, [], rfl, .nil _⟩
  | case2 =>
      cases h
  | case3 found input hreturn s hread ih =>
      rcases run_of_statement (n := n) hm hvalue (takes_iff.1 hread) with ⟨ls, hls, hrun⟩
      rcases ih h with ⟨hreturn, ls', hls', hrun'⟩
      refine ⟨hreturn, ls ++ ls', ?_, ?_⟩
      · rw [List.append_assoc, ← hls']
        exact hls
      · rw [tokens_append]
        exact hrun.append hrun'

theorem refuses_ending (hn : n.LeavesSemicolon) (hresult : GoesWith stop result n)
    (hreturn : nextIs .returnWord input = true)
    (h : ending stop result input = .error (.syntaxFault offset fault)) :
    Refuses (frame m n) stop .statement input offset := by
  simp only [ending, except_bind_eq_error] at h
  rcases h with hword | ⟨word, hword, h⟩
  · -- the keyword is there, since the statements end before it
    rcases expect_fault hword with ⟨_, hne⟩
    cases input with
    | nil =>
        cases hreturn
    | cons l later =>
        exact absurd (beq_iff_eq.1 hreturn) (hne l rfl)
  rcases takes_expect.1 (takes_iff.1 hword) with ⟨l₁, hl₁, hinput⟩
  refine .cons hinput hl₁ rfl ?_
  rcases h with hread | ⟨read, hread, h⟩
  · rcases hresult.fault hread with ⟨s, hhalts, hs⟩
    exact hhalts.toSemicolon (fun _ _ => rfl) hn hs
  rcases h with hsemicolon | ⟨semicolon, hsemicolon, h⟩
  · exact refuses_semicolon (fun _ _ => rfl) hn hresult (takes_iff.1 hread) hsemicolon
  rcases hresult.takes (takes_iff.1 hread) with ⟨ls, s, hrest, hrun, hs, _⟩
  rcases takes_expect.1 (takes_iff.1 hsemicolon) with ⟨l₂, hl₂, hlater⟩
  have hclosing : (frame m n).Run (.result n.start) (tokens (ls ++ [l₂])) .closing := by
    have hall : (frame m n).Run (.result n.start) (tokens ls ++ [.semicolon]) .closing :=
      hrun.toSemicolon (fun _ _ => rfl) hn hs
    simpa [tokens, hl₂] using hall
  have hsplit : word.rest = (ls ++ [l₂]) ++ semicolon.rest :=
    hrest.trans ((congrArg (ls ++ ·) hlater).trans (by simp))
  refine .after hsplit hclosing ?_
  rcases h with hbrace | ⟨brace, hbrace, h⟩
  · apply refuses_expect hbrace
    intro t ht
    cases t with
    | rightBrace => exact absurd rfl ht
    | _ => rfl
  · cases h

theorem run_of_ending (hn : n.LeavesSemicolon) (hresult : GoesWith stop result n) {r : R}
    (h : Takes (ending stop result) input rest r) :
    ∃ ls, input = ls ++ rest ∧ (frame m n).Run .statement (tokens ls) .done := by
  rcases h with ⟨_, h⟩
  simp only [ending, except_bind_eq_ok] at h
  rcases h with ⟨word, hword, read, hread, semicolon, hsemicolon, brace, hbrace, hdone⟩
  cases hdone
  rcases takes_expect.1 (takes_iff.1 hword) with ⟨l₁, hl₁, hinput⟩
  rcases hresult.takes (takes_iff.1 hread) with ⟨ls, s, hword, hrun, hs, _⟩
  rcases takes_expect.1 (takes_iff.1 hsemicolon) with ⟨l₂, hl₂, hread⟩
  rcases takes_expect.1 (takes_iff.1 hbrace) with ⟨l₃, hl₃, hsemicolon⟩
  refine ⟨l₁ :: (ls ++ [l₂, l₃]), ?_, ?_⟩
  · rw [hsemicolon] at hread
    rw [hread] at hword
    rw [hword] at hinput
    simpa using hinput
  · have hbrace : (frame m n).Run .closing [.rightBrace] .done := .single rfl
    have hall := (run_result hn hrun hs).append hbrace
    simpa [tokens, hl₁, hl₂, hl₃] using hall

/-- If its parts go with their acceptors, then the frame refuses what its acceptor does. -/
theorem refuses_program {value : String → Reader V} {result : String → Reader R}
    (hm : m.LeavesSemicolon) (hn : n.LeavesSemicolon)
    (hvalue : ∀ name, GoesWith stop (value name) m)
    (hresult : ∀ name, GoesWith stop (result name) n)
    (h : program stop value result input = .error (.syntaxFault offset fault)) :
    Refuses (frame m n) stop .name input offset := by
  simp only [program, except_bind_eq_error] at h
  rcases h with hheader | ⟨header, hheader, h⟩
  · exact refuses_header hheader
  rcases takes_header.1 (takes_iff.1 hheader) with ⟨front, hinput, hfront⟩
  have hrun : (frame m n).Run .name (tokens front) .statement := by
    rw [hfront]
    exact run_headerTokens _ _
  refine .after hinput hrun ?_
  rcases h with hbody | ⟨⟨body, later⟩, hbody, h⟩
  · exact refuses_statements hm (hvalue _) hbody
  rcases run_of_statements (n := n) hm (hvalue _) hbody with ⟨hreturn, ls, hls, hrun⟩
  refine .after hls hrun ?_
  rcases h with hread | ⟨read, hread, h⟩
  · exact refuses_ending hn (hresult _) hreturn hread
  rcases run_of_ending (m := m) hn (hresult _) (takes_iff.1 hread) with ⟨last, hlast, hrun⟩
  refine .after hlast hrun ?_
  split at h
  · cases h
  · -- a token behind the end of the function
    next l more hmore =>
      cases h
      rw [hmore]
      exact ⟨.done, .here fun _ _ => rfl⟩

end Body

/-! ## The blamed token -/

/-- The offset is where lexeme `i` starts, or the end of the source behind all lexemes. The tokens
before it can be completed to a sequence that is derived; with token `i` they cannot. -/
def Blames {α : Type} (Derived : List Token → α → Prop) (stop : Nat) (lexemes : List Lexeme)
    (offset : Nat) : Prop :=
  ∃ i, ((∃ l, lexemes[i]? = some l ∧ offset = l.start) ∨ i = lexemes.length ∧ offset = stop) ∧
    (∃ us a, Derived (tokens (lexemes.take i) ++ us) a) ∧
    (i < lexemes.length → ∀ us a, ¬ Derived (tokens (lexemes.take (i + 1)) ++ us) a)

theorem blames_of_refuses {S α : Type} {m : Acceptor S} {Derived : List Token → α → Prop}
    (hm : Recognizes m Derived) {stop offset : Nat} {lexemes : List Lexeme}
    (h : Refuses m stop m.start lexemes offset) : Blames Derived stop lexemes offset := by
  rcases h with ⟨s, ls, rest, rfl, hrun, rfl, hrefused⟩
  have htake : (ls ++ rest).take ls.length = ls := List.take_left
  refine ⟨ls.length, ?_, ?_, ?_⟩
  · cases rest with
    | nil =>
        exact Or.inr ⟨by simp, rfl⟩
    | cons l rest =>
        exact Or.inl ⟨l, by simp, rfl⟩
  · rw [htake]
    exact hm.exists_completion hrun
  · intro hlt us a
    cases rest with
    | nil =>
        simp at hlt
    | cons l rest =>
        have hnext : (ls ++ l :: rest).take (ls.length + 1) = ls ++ [l] := by
          rw [List.take_append, List.take_of_length_le (Nat.le_succ _)]
          simp
        rw [hnext, tokens_append]
        exact hm.not_derived hrun (hrefused l rfl) us a

end Parser

end StraightLine
