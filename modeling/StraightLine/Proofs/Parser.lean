import StraightLine.Parser
import StraightLine.Proofs.Chain
import StraightLine.Proofs.Grammar

/-!
# Parser — the frame is read exactly

If the readers for right-hand sides and results read exactly what their grammars derive, then the
frame around them reads exactly the functions. Such a reader finds every derivation that is followed
by a semicolon, and everything that it takes is a derivation.

* `Parser.Takes` — a reader takes the front of its input;
* `Parser.Exact` — a reader and a grammar agree;
* `Parser.program_eq_ok` — the frame and its grammar agree.
-/

namespace StraightLine

namespace Parser

open Grammar

/-- The reader takes `input` up to `rest` and answers with `a`. -/
def Takes {α : Type} (reader : Reader α) (input rest : List Lexeme) (a : α) : Prop :=
  ∃ h, reader input = .ok ⟨a, rest, h⟩

theorem takes_iff {α : Type} {reader : Reader α} {input : List Lexeme}
    {c : Consumed α input} : reader input = .ok c ↔ Takes reader input c.rest c.value :=
  ⟨fun h => ⟨c.shorter, h⟩, fun ⟨_, h⟩ => h⟩

/-! ## Small readers -/

section Readers

variable {stop : Nat} {input rest : List Lexeme}

theorem expect_cons {t : Token} {l : Lexeme} (h : l.token = t) :
    expect stop t (l :: rest) = .ok (.head () l rest) :=
  if_pos h

theorem identifier_cons {x : String} {l : Lexeme} (h : l.token = .ident x) :
    identifier stop (l :: rest) = .ok (.head x l rest) := by
  simp only [identifier, h]

theorem takes_expect {t : Token} :
    Takes (expect stop t) input rest () ↔ ∃ l, l.token = t ∧ input = l :: rest := by
  constructor
  · rintro ⟨_, hread⟩
    cases input with
    | nil =>
        cases hread
    | cons l later =>
        simp only [expect] at hread
        split at hread
        · next ht =>
            cases hread
            exact ⟨l, ht, rfl⟩
        · cases hread
  · rintro ⟨l, ht, rfl⟩
    exact ⟨_, expect_cons ht⟩

theorem takes_identifier {x : String} :
    Takes (identifier stop) input rest x ↔ ∃ l, l.token = .ident x ∧ input = l :: rest := by
  constructor
  · rintro ⟨_, hread⟩
    cases input with
    | nil =>
        cases hread
    | cons l later =>
        simp only [identifier] at hread
        split at hread
        · next ht =>
            cases hread
            exact ⟨l, ht, rfl⟩
        · cases hread
  · rintro ⟨l, ht, rfl⟩
    exact ⟨_, identifier_cons ht⟩

end Readers

/-! ## Header -/

section Header

variable {stop : Nat} {rest : List Lexeme}

/-- Names are taken as long as a comma follows. -/
theorem moreNames_sound {found : List String} {input : List Lexeme}
    {read : { read : List String × List Lexeme // read.2.length ≤ input.length }}
    (h : moreNames stop found input = .ok read) :
    ∃ ls more, input = ls ++ read.val.2 ∧ tokens ls = moreTokens more ∧
      read.val.1 = found.reverse ++ more := by
  fun_induction moreNames stop found input with
  | case1 found =>
      cases h
      exact ⟨[], [], rfl, rfl, by simp⟩
  | case2 found l later hcomma e hname =>
      cases h
  | case3 found l later hcomma name hname e hmore ih =>
      cases h
  | case4 found l later hcomma name hname more hmore ih =>
      cases h
      rcases takes_identifier.1 (takes_iff.1 hname) with ⟨l', hl', hlater⟩
      rcases ih hmore with ⟨ls, names, hrest, hls, hnames⟩
      refine ⟨l :: l' :: ls, name.value :: names, ?_, ?_, ?_⟩
      · exact congrArg (l :: ·) (hlater.trans (congrArg (l' :: ·) hrest))
      · change l.token :: l'.token :: tokens ls = _
        rw [hcomma, hl', hls]
        rfl
      · simp [hnames]
  | case5 found l later hcomma =>
      cases h
      exact ⟨[], [], rfl, rfl, by simp⟩

theorem moreNames_complete (stop : Nat) (found : List String) {more : List String}
    {ls : List Lexeme} (hls : tokens ls = moreTokens more) (hrest : nextIs .comma rest = false) :
    ∃ h, moreNames stop found (ls ++ rest) = .ok ⟨(found.reverse ++ more, rest), h⟩ := by
  induction more generalizing found ls with
  | nil =>
      cases List.map_eq_nil_iff.1 hls
      cases rest with
      | nil =>
          simp [moreNames]
      | cons l later =>
          have hcomma : l.token ≠ .comma := by
            simpa [nextIs] using hrest
          simp [moreNames, hcomma]
  | cons x more ih =>
      rcases List.map_eq_cons_iff.1 hls with ⟨l, ls', rfl, hl, hls⟩
      rcases List.map_eq_cons_iff.1 hls with ⟨l', ls, rfl, hl', hls⟩
      rcases ih (x :: found) hls with ⟨hmore, hread⟩
      have hlength : rest.length ≤ (l :: l' :: ls ++ rest).length := by
        simp
        omega
      refine ⟨hlength, ?_⟩
      change moreNames stop found (l :: l' :: (ls ++ rest)) = _
      rw [moreNames]
      simp [hl, identifier_cons hl', Consumed.head, hread]

theorem paramNames_sound {input : List Lexeme}
    {read : { read : List String × List Lexeme // read.2.length ≤ input.length }}
    (h : paramNames stop input = .ok read) :
    ∃ ls, input = ls ++ read.val.2 ∧ tokens ls = nameTokens read.val.1 := by
  unfold paramNames at h
  split at h
  · cases h
    exact ⟨[], rfl, rfl⟩
  · split at h
    · cases h
    · next first hfirst =>
        split at h
        · cases h
        · next more hmore =>
            cases h
            rcases takes_identifier.1 (takes_iff.1 hfirst) with ⟨l, hl, hinput⟩
            rcases moreNames_sound hmore with ⟨ls, names, hrest, hls, hnames⟩
            refine ⟨l :: ls, hinput.trans (congrArg (l :: ·) hrest), ?_⟩
            change l.token :: tokens ls = _
            rw [hl, hls, hnames]
            rfl

theorem paramNames_complete (stop : Nat) {params : List String} {ls : List Lexeme}
    (hls : tokens ls = nameTokens params) (hrest : nextIs .rightParen rest = true) :
    ∃ h, paramNames stop (ls ++ rest) = .ok ⟨(params, rest), h⟩ := by
  cases params with
  | nil =>
      cases List.map_eq_nil_iff.1 hls
      exact ⟨Nat.le_refl _, if_pos hrest⟩
  | cons x more =>
      rcases List.map_eq_cons_iff.1 hls with ⟨l, ls, rfl, hl, hls⟩
      have hcomma : nextIs .comma rest = false := by
        cases rest with
        | nil =>
            rfl
        | cons l later =>
            have hparen : l.token = .rightParen := by
              simpa [nextIs] using hrest
            simp [nextIs, hparen]
      rcases moreNames_complete stop [x] hls hcomma with ⟨_, hread⟩
      have hlength : rest.length ≤ (l :: ls ++ rest).length := by
        simp
        omega
      refine ⟨hlength, ?_⟩
      change paramNames stop (l :: (ls ++ rest)) = _
      simp [paramNames, nextIs, hl, identifier_cons hl, Consumed.head, hread]

theorem takes_header {input : List Lexeme} {name : String} {params : List String} :
    Takes (header stop) input rest (name, params) ↔
      ∃ ls, input = ls ++ rest ∧ tokens ls = headerTokens name params := by
  constructor
  · rintro ⟨_, hread⟩
    simp only [header, except_bind_eq_ok] at hread
    rcases hread with ⟨word, hword, opening, hopening, read, hnames, closing, hclosing, brace,
      hbrace, hread⟩
    cases hread
    rcases takes_identifier.1 (takes_iff.1 hword) with ⟨l₁, hl₁, hinput⟩
    rcases takes_expect.1 (takes_iff.1 hopening) with ⟨l₂, hl₂, hword⟩
    rcases paramNames_sound hnames with ⟨ls, hopening, hls⟩
    rcases takes_expect.1 (takes_iff.1 hclosing) with ⟨l₃, hl₃, hnames⟩
    rcases takes_expect.1 (takes_iff.1 hbrace) with ⟨l₄, hl₄, hclosing⟩
    refine ⟨l₁ :: l₂ :: (ls ++ [l₃, l₄]), ?_, ?_⟩
    · -- each reader starts where the one before it stopped, so the last rest is put in first
      rw [hclosing] at hnames
      rw [hnames] at hopening
      rw [hopening] at hword
      rw [hword] at hinput
      simpa using hinput
    · simp [tokens, headerTokens, hl₁, hl₂, hl₃, hl₄, ← hls]
  · rintro ⟨ls, rfl, hls⟩
    rcases List.map_eq_cons_iff.1 hls with ⟨l₁, ls, rfl, hl₁, hls⟩
    rcases List.map_eq_cons_iff.1 hls with ⟨l₂, ls, rfl, hl₂, hls⟩
    rcases List.map_eq_append_iff.1 hls with ⟨names, closing, rfl, hnames, hclosing⟩
    rcases List.map_eq_cons_iff.1 hclosing with ⟨l₃, ls', rfl, hl₃, hclosing⟩
    rcases List.map_eq_cons_iff.1 hclosing with ⟨l₄, ls', rfl, hl₄, hclosing⟩
    cases List.map_eq_nil_iff.1 hclosing
    have hinput : l₁ :: l₂ :: (names ++ [l₃, l₄]) ++ rest =
        l₁ :: l₂ :: (names ++ l₃ :: l₄ :: rest) := by
      simp
    have hparen : nextIs .rightParen (l₃ :: l₄ :: rest) = true := by
      simp [nextIs, hl₃]
    rcases paramNames_complete stop hnames hparen with ⟨_, hread⟩
    rw [hinput]
    refine ⟨by simp; omega, ?_⟩
    simp only [header, except_bind_eq_ok]
    exact ⟨_, identifier_cons hl₁, _, expect_cons hl₂, _, hread, _, expect_cons hl₃, _,
      expect_cons hl₄, rfl⟩

end Header

/-! ## Body and result -/

/-- What the reader takes is derived, and what is derived is taken if a semicolon follows. -/
structure Exact {α : Type} (reader : Reader α) (Derived : List Token → α → Prop) : Prop where
  sound : ∀ {input rest : List Lexeme} {a : α}, Takes reader input rest a →
    ∃ ls, input = ls ++ rest ∧ Derived (tokens ls) a
  complete : ∀ {ls rest : List Lexeme} {a : α}, Derived (tokens ls) a →
    nextIs .semicolon rest = true → Takes reader (ls ++ rest) rest a

section Body

variable {V R : Type} {stop : Nat} {input rest : List Lexeme} {value : Reader V}
  {result : Reader R} {Value : List Token → V → Prop} {Result : List Token → R → Prop}

theorem nextIs_cons {t : Token} {l : Lexeme} (h : l.token = t) (rest : List Lexeme) :
    nextIs t (l :: rest) = true :=
  beq_iff_eq.2 h

theorem takes_statement (hvalue : Exact value Value) {target : String} {v : V} :
    Takes (statement stop value) input rest ⟨target, v⟩ ↔
      ∃ ls vs, input = ls ++ rest ∧ Value vs v ∧
        tokens ls = .ident target :: .assign :: (vs ++ [.semicolon]) := by
  constructor
  · rintro ⟨_, hread⟩
    simp only [statement, except_bind_eq_ok] at hread
    rcases hread with ⟨word, hword, sign, hsign, read, hread, semicolon, hsemicolon, hdone⟩
    cases hdone
    rcases takes_identifier.1 (takes_iff.1 hword) with ⟨l₁, hl₁, hinput⟩
    rcases takes_expect.1 (takes_iff.1 hsign) with ⟨l₂, hl₂, hword⟩
    rcases hvalue.sound (takes_iff.1 hread) with ⟨ls, hsign, hls⟩
    rcases takes_expect.1 (takes_iff.1 hsemicolon) with ⟨l₃, hl₃, hread⟩
    refine ⟨l₁ :: l₂ :: (ls ++ [l₃]), tokens ls, ?_, hls, ?_⟩
    · rw [hread] at hsign
      rw [hsign] at hword
      rw [hword] at hinput
      simpa using hinput
    · simp [tokens, hl₁, hl₂, hl₃]
  · rintro ⟨ls, vs, rfl, hv, hls⟩
    rcases List.map_eq_cons_iff.1 hls with ⟨l₁, ls, rfl, hl₁, hls⟩
    rcases List.map_eq_cons_iff.1 hls with ⟨l₂, ls, rfl, hl₂, hls⟩
    rcases List.map_eq_append_iff.1 hls with ⟨ls, closing, rfl, rfl, hclosing⟩
    rcases List.map_eq_cons_iff.1 hclosing with ⟨l₃, ls', rfl, hl₃, hclosing⟩
    cases List.map_eq_nil_iff.1 hclosing
    have hinput : l₁ :: l₂ :: (ls ++ [l₃]) ++ rest = l₁ :: l₂ :: (ls ++ l₃ :: rest) := by
      simp
    rcases hvalue.complete hv (nextIs_cons hl₃ rest) with ⟨_, hread⟩
    rw [hinput]
    refine ⟨by simp; omega, ?_⟩
    simp only [statement, except_bind_eq_ok]
    exact ⟨_, identifier_cons hl₁, _, expect_cons hl₂, _, hread, _, expect_cons hl₃, rfl⟩

theorem takes_ending (hresult : Exact result Result) {r : R} :
    Takes (ending stop result) input rest r ↔
      ∃ ls rs, input = ls ++ rest ∧ Result rs r ∧
        tokens ls = .returnWord :: (rs ++ [.semicolon, .rightBrace]) := by
  constructor
  · rintro ⟨_, hread⟩
    simp only [ending, except_bind_eq_ok] at hread
    rcases hread with ⟨word, hword, read, hread, semicolon, hsemicolon, brace, hbrace, hdone⟩
    cases hdone
    rcases takes_expect.1 (takes_iff.1 hword) with ⟨l₁, hl₁, hinput⟩
    rcases hresult.sound (takes_iff.1 hread) with ⟨ls, hword, hls⟩
    rcases takes_expect.1 (takes_iff.1 hsemicolon) with ⟨l₂, hl₂, hread⟩
    rcases takes_expect.1 (takes_iff.1 hbrace) with ⟨l₃, hl₃, hsemicolon⟩
    refine ⟨l₁ :: (ls ++ [l₂, l₃]), tokens ls, ?_, hls, ?_⟩
    · rw [hsemicolon] at hread
      rw [hread] at hword
      rw [hword] at hinput
      simpa using hinput
    · simp [tokens, hl₁, hl₂, hl₃]
  · rintro ⟨ls, rs, rfl, hr, hls⟩
    rcases List.map_eq_cons_iff.1 hls with ⟨l₁, ls, rfl, hl₁, hls⟩
    rcases List.map_eq_append_iff.1 hls with ⟨ls, closing, rfl, rfl, hclosing⟩
    rcases List.map_eq_cons_iff.1 hclosing with ⟨l₂, ls', rfl, hl₂, hclosing⟩
    rcases List.map_eq_cons_iff.1 hclosing with ⟨l₃, ls', rfl, hl₃, hclosing⟩
    cases List.map_eq_nil_iff.1 hclosing
    have hinput : l₁ :: (ls ++ [l₂, l₃]) ++ rest = l₁ :: (ls ++ l₂ :: l₃ :: rest) := by
      simp
    rcases hresult.complete hr (nextIs_cons hl₂ (l₃ :: rest)) with ⟨_, hread⟩
    rw [hinput]
    refine ⟨by simp; omega, ?_⟩
    simp only [ending, except_bind_eq_ok]
    exact ⟨_, expect_cons hl₁, _, hread, _, expect_cons hl₂, _, expect_cons hl₃, rfl⟩

theorem statements_sound (hvalue : Exact value Value) {found body : List (Assignment V)}
    (h : statements stop value found input = .ok (body, rest)) :
    ∃ ls more, input = ls ++ rest ∧ Statements Value (tokens ls) more ∧
      body = found.reverse ++ more := by
  fun_induction statements stop value found input with
  | case1 found input hreturn =>
      cases h
      exact ⟨[], [], rfl, .nil, by simp⟩
  | case2 found input hreturn e hread =>
      cases h
  | case3 found input hreturn s hread ih =>
      rcases (takes_statement hvalue).1 (takes_iff.1 hread) with ⟨ls, vs, hinput, hvs, hls⟩
      rcases ih h with ⟨ls', more, hrest, hmore, rfl⟩
      refine ⟨ls ++ ls', s.value :: more, ?_, ?_, by simp⟩
      · rw [List.append_assoc, ← hrest]
        exact hinput
      · have htokens : tokens (ls ++ ls') =
            .ident s.value.target :: .assign :: (vs ++ .semicolon :: tokens ls') := by
          rw [tokens_append, hls]
          simp
        rw [htokens]
        exact .cons hvs hmore

theorem statements_complete (hvalue : Exact value Value) (found : List (Assignment V))
    {ts : List Token} {more : List (Assignment V)} {ls : List Lexeme} (h : Statements Value ts more)
    (hls : tokens ls = ts) (hrest : nextIs .returnWord rest = true) :
    statements stop value found (ls ++ rest) = .ok (found.reverse ++ more, rest) := by
  induction h generalizing found ls with
  | nil =>
      cases List.map_eq_nil_iff.1 hls
      rw [List.nil_append, statements, if_pos hrest, List.append_nil]
  | @cons target vs ts v more hv _ ih =>
      have hsplit : Token.ident target :: .assign :: (vs ++ .semicolon :: ts) =
          (.ident target :: .assign :: (vs ++ [.semicolon])) ++ ts := by
        simp
      rcases List.map_eq_append_iff.1 (hls.trans hsplit) with ⟨first, ls, rfl, hfirst, hlater⟩
      have htakes : Takes (statement stop value) (first ++ (ls ++ rest)) (ls ++ rest) ⟨target, v⟩ :=
        (takes_statement hvalue).2 ⟨first, vs, rfl, hv, hfirst⟩
      rcases htakes with ⟨_, hread⟩
      -- a statement starts with its target, so the loop does not stop before it
      have hreturn : nextIs .returnWord (first ++ (ls ++ rest)) = false := by
        rcases List.map_eq_cons_iff.1 hfirst with ⟨l, _, rfl, hl, _⟩
        simp [nextIs, hl]
      rw [List.append_assoc, statements, hreturn, hread]
      have hmore := ih (⟨target, v⟩ :: found) hlater
      simpa using hmore

/-- The frame reads the functions of its grammar and nothing else. -/
theorem program_eq_ok {value : String → Reader V} {result : String → Reader R}
    (hvalue : ∀ name, Exact (value name) Value) (hresult : ∀ name, Exact (result name) Result)
    {f : Program V R} :
    program stop value result input = .ok f ↔ IsProgram Value Result (tokens input) f := by
  constructor
  · intro h
    simp only [program, except_bind_eq_ok] at h
    rcases h with ⟨header, hheader, ⟨body, later⟩, hbody, read, hread, hdone⟩
    rcases (takes_header.1 (takes_iff.1 hheader)) with ⟨front, hinput, hfront⟩
    rcases statements_sound (hvalue _) hbody with ⟨ls, more, hheader, hls, hmore⟩
    rcases (takes_ending (hresult _)).1 (takes_iff.1 hread) with ⟨last, rs, hlater, hrs, hlast⟩
    dsimp only at hdone hlater
    split at hdone
    · next hend =>
        cases hdone
        have htokens := congrArg tokens hinput
        rw [hend, List.append_nil] at hlater
        rw [hheader, hlater, tokens_append, tokens_append, hfront, hlast] at htokens
        rw [htokens, hmore]
        exact .intro hls hrs
    · cases hdone
  · intro h
    generalize hts : tokens input = ts at h
    cases h with
    | @intro name params ts rs body r hbody hrs =>
        rcases List.map_eq_append_iff.1 hts with ⟨front, later, rfl, hfront, hlater⟩
        rcases List.map_eq_append_iff.1 hlater with ⟨ls, last, rfl, hls, hlast⟩
        have hreturn : nextIs .returnWord last = true := by
          rcases List.map_eq_cons_iff.1 hlast with ⟨l, _, rfl, hl, _⟩
          exact nextIs_cons hl _
        have hheader : Takes (header stop) (front ++ (ls ++ last)) (ls ++ last) (name, params) :=
          takes_header.2 ⟨front, rfl, hfront⟩
        have hstatements : statements stop (value name) [] (ls ++ last) = .ok (body, last) :=
          statements_complete (hvalue name) [] hbody hls hreturn
        have hending : Takes (ending stop (result name)) last [] r :=
          (takes_ending (hresult name)).2 ⟨last, rs, by simp, hrs, hlast⟩
        rcases hheader with ⟨_, hheader⟩
        rcases hending with ⟨_, hending⟩
        simp only [program, except_bind_eq_ok]
        exact ⟨_, hheader, _, hstatements, _, hending, rfl⟩

end Body

end Parser

end StraightLine
