import StraightLine.Proofs.Grammar

/-!
# Acceptor — functions are recognized token by token

An acceptor refuses a token as soon as nothing that is derived goes on with it: every place that it
can reach has a way to a final one, and what is read on the way from the start to a final place is
derived. So the tokens before the first refusal can be completed, and together with the refused
token they cannot.

* `Grammar.Acceptor`, `Grammar.Acceptor.Run` — devices that read tokens, and their runs;
* `Grammar.Recognizes` — an acceptor and a grammar agree;
* `Grammar.frame` — the acceptor of the frame, around those of its parts;
* `Grammar.recognizes_frame` — it recognizes whole functions.
-/

namespace StraightLine

namespace Grammar

/-- Reads tokens one at a time and may refuse each of them. -/
structure Acceptor (S : Type) where
  start : S
  step : S → Token → Option S
  final : S → Bool

namespace Acceptor

variable {S S' : Type} {m : Acceptor S} {m' : Acceptor S'} {s s' s'' : S} {ts us : List Token}

inductive Run (m : Acceptor S) : S → List Token → S → Prop where
  | nil (s : S) : Run m s [] s
  | cons {s s' s'' : S} {t : Token} {ts : List Token} :
      m.step s t = some s' → Run m s' ts s'' → Run m s (t :: ts) s''

theorem Run.append (h : m.Run s ts s') (h' : m.Run s' us s'') : m.Run s (ts ++ us) s'' := by
  induction h with
  | nil s =>
      exact h'
  | cons hstep _ ih =>
      exact .cons hstep (ih h')

theorem Run.single {t : Token} (h : m.step s t = some s') : m.Run s [t] s' :=
  .cons h (.nil s')

/-- A run passes through one place between two parts of what it reads. -/
theorem Run.split (h : m.Run s (ts ++ us) s'') : ∃ s', m.Run s ts s' ∧ m.Run s' us s'' := by
  induction ts generalizing s with
  | nil =>
      exact ⟨s, .nil s, h⟩
  | cons t ts ih =>
      cases h with
      | cons hstep h =>
          rcases ih h with ⟨s', hts, hus⟩
          exact ⟨s', .cons hstep hts, hus⟩

/-- What is read determines where the run ends. -/
theorem Run.unique (h : m.Run s ts s') (h' : m.Run s ts s'') : s' = s'' := by
  induction h with
  | nil s =>
      cases h'
      rfl
  | cons hstep _ ih =>
      cases h' with
      | cons hstep' h' =>
          rw [hstep] at hstep'
          cases hstep'
          exact ih h'

/-- A run of an acceptor that is part of another one. -/
theorem Run.map {f : S → S'}
    (hf : ∀ {s t s'}, m.step s t = some s' → m'.step (f s) t = some (f s'))
    (h : m.Run s ts s') : m'.Run (f s) ts (f s') := by
  induction h with
  | nil s =>
      exact .nil (f s)
  | cons hstep _ ih =>
      exact .cons (hf hstep) ih

/-- What holds of the places and the tokens read so far, if every step keeps it. -/
theorem Run.induct {P : S → List Token → Prop}
    (hstep : ∀ {s ts t s'}, P s ts → m.step s t = some s' → P s' (ts ++ [t])) (hs : P s ts)
    (h : m.Run s us s') : P s' (ts ++ us) := by
  -- the run goes on at its end while the induction takes its first step, so `ts` grows
  induction h generalizing ts with
  | nil s =>
      rwa [List.append_nil]
  | @cons s s' s'' t us hread _ ih =>
      have hlater := ih (hstep hs hread)
      rwa [List.append_assoc] at hlater

end Acceptor

/-- From the start to a final place exactly the derived sequences are read, and every place has a
way to a final one. -/
structure Recognizes {S α : Type} (m : Acceptor S) (Derived : List Token → α → Prop) : Prop where
  accepts : ∀ {ts : List Token} {a : α}, Derived ts a →
    ∃ s, m.Run m.start ts s ∧ m.final s = true
  derives : ∀ {ts : List Token} {s : S}, m.Run m.start ts s → m.final s = true → ∃ a, Derived ts a
  completes : ∀ s : S, ∃ ts s', m.Run s ts s' ∧ m.final s' = true

section Recognizes

variable {S α : Type} {m : Acceptor S} {Derived : List Token → α → Prop} {s : S}
  {ts : List Token}

/-- What can be read can be completed. -/
theorem Recognizes.exists_completion (h : Recognizes m Derived) (hrun : m.Run m.start ts s) :
    ∃ us a, Derived (ts ++ us) a := by
  rcases h.completes s with ⟨us, s', hus, hfinal⟩
  exact ⟨us, h.derives (hrun.append hus) hfinal⟩

/-- No completion goes on with a token that is refused. -/
theorem Recognizes.not_derived (h : Recognizes m Derived) (hrun : m.Run m.start ts s) {t : Token}
    (ht : m.step s t = none) (us : List Token) (a : α) : ¬ Derived (ts ++ [t] ++ us) a := by
  intro hderived
  rcases h.accepts hderived with ⟨s', hread, _⟩
  rw [List.append_assoc] at hread
  rcases hread.split with ⟨s'', hts, hlater⟩
  cases hlater with
  | cons hstep _ =>
      -- the run over the same tokens ends in the same place
      rw [← hrun.unique hts, ht] at hstep
      cases hstep

end Recognizes

/-! ## The frame -/

/-- Where a function is read; inside a right-hand side or a result, where that is read. -/
inductive Place (S T : Type) where
  | name
  | opening
  | firstParam
  | afterParam
  | nextParam
  | brace
  | statement
  | assign
  | value (s : S)
  | result (s : T)
  | closing
  | done

/-- One step inside a part that a semicolon ends. -/
def upToSemicolon {S P : Type} (m : Acceptor S) (inside : S → P) (after : P) (s : S) (t : Token) :
    Option P :=
  if t = .semicolon then
    if m.final s then some after else none
  else (m.step s t).map inside

/-- The frame around acceptors for right-hand sides and results. -/
def frame {S T : Type} (value : Acceptor S) (result : Acceptor T) : Acceptor (Place S T) where
  start := .name
  step
    | .name, .ident _ => some .opening
    | .opening, .leftParen => some .firstParam
    | .firstParam, .ident _ => some .afterParam
    | .firstParam, .rightParen => some .brace
    | .afterParam, .comma => some .nextParam
    | .afterParam, .rightParen => some .brace
    | .nextParam, .ident _ => some .afterParam
    | .brace, .leftBrace => some .statement
    | .statement, .ident _ => some .assign
    | .statement, .returnWord => some (.result result.start)
    | .assign, .assign => some (.value value.start)
    | .value s, t => upToSemicolon value .value .statement s t
    | .result s, t => upToSemicolon result .result .closing s t
    | .closing, .rightBrace => some .done
    | _, _ => none
  final
    | .done => true
    | _ => false

section Parts

variable {S P : Type} {m : Acceptor S} {inside : S → P} {after : P} {s s' : S} {t : Token}

/-- A semicolon is never part of what is read. -/
def Acceptor.LeavesSemicolon (m : Acceptor S) : Prop :=
  ∀ s, m.step s .semicolon = none

theorem upToSemicolon_of_step (hm : m.LeavesSemicolon) (h : m.step s t = some s') :
    upToSemicolon m inside after s t = some (inside s') := by
  have ht : t ≠ .semicolon := by
    rintro rfl
    rw [hm s] at h
    cases h
  rw [upToSemicolon, if_neg ht, h]
  rfl

/-- A run of a part is one of the acceptor around it. -/
theorem Acceptor.Run.around {outer : Acceptor P} {ts : List Token}
    (houter : ∀ s t, outer.step (inside s) t = upToSemicolon m inside after s t)
    (hm : m.LeavesSemicolon) (h : m.Run s ts s') : outer.Run (inside s) ts (inside s') := by
  apply h.map
  intro s t s' hstep
  rw [houter]
  exact upToSemicolon_of_step hm hstep

/-- A part that is read to its end, with the semicolon behind it. -/
theorem Acceptor.Run.toSemicolon {outer : Acceptor P} {ts : List Token}
    (houter : ∀ s t, outer.step (inside s) t = upToSemicolon m inside after s t)
    (hm : m.LeavesSemicolon) (h : m.Run s ts s') (hs' : m.final s' = true) :
    outer.Run (inside s) (ts ++ [.semicolon]) after := by
  have hsemicolon : outer.step (inside s') .semicolon = some after := by
    rw [houter, upToSemicolon, if_pos rfl, if_pos hs']
  exact (h.around houter hm).append (.single hsemicolon)

/-- A part refuses what it cannot read, and a semicolon as long as something is missing. -/
theorem upToSemicolon_eq_none (h : m.step s t = none) (hs : t = .semicolon → m.final s = false) :
    upToSemicolon m inside after s t = none := by
  unfold upToSemicolon
  split
  · next ht =>
      rw [hs ht]
      rfl
  · rw [h]
    rfl

/-- The two ways in which a part goes on. -/
theorem upToSemicolon_eq_some {p : P} (h : upToSemicolon m inside after s t = some p) :
    t = .semicolon ∧ m.final s = true ∧ p = after ∨
      ∃ s', m.step s t = some s' ∧ p = inside s' := by
  unfold upToSemicolon at h
  split at h
  · next ht =>
      split at h
      · next hfinal =>
          cases h
          exact Or.inl ⟨ht, hfinal, rfl⟩
      · cases h
  · rcases Option.map_eq_some_iff.1 h with ⟨s', hs', rfl⟩
    exact Or.inr ⟨s', hs', rfl⟩

end Parts

/-! ### What the frame accepts -/

section Accepts

variable {S T V R : Type} {value : Acceptor S} {result : Acceptor T}
  {Value : List Token → V → Prop} {Result : List Token → R → Prop}

theorem run_moreTokens (names : List String) :
    (frame value result).Run .afterParam (moreTokens names) .afterParam := by
  induction names with
  | nil =>
      exact .nil _
  | cons x more ih =>
      have hcomma : (frame value result).Run .afterParam [.comma] .nextParam := .single rfl
      exact hcomma.append (.cons rfl ih)

theorem run_nameTokens (names : List String) :
    (frame value result).Run .firstParam (nameTokens names ++ [.rightParen]) .brace := by
  cases names with
  | nil =>
      exact .single rfl
  | cons x more =>
      exact .cons rfl ((run_moreTokens more).append (.single rfl))

theorem run_headerTokens (name : String) (params : List String) :
    (frame value result).Run .name (headerTokens name params) .statement := by
  have hnames : (frame value result).Run .firstParam (nameTokens params ++ [.rightParen]) .brace :=
    run_nameTokens params
  have hparams := hnames.append (.single (t := .leftBrace) rfl)
  rw [List.append_assoc] at hparams
  exact .cons rfl (.cons rfl hparams)

/-- A right-hand side with its target and its semicolon. -/
theorem run_statement (hvalue : value.LeavesSemicolon) {vs : List Token} {s : S}
    (h : value.Run value.start vs s) (hs : value.final s = true) (target : String) :
    (frame value result).Run .statement (.ident target :: .assign :: (vs ++ [.semicolon]))
      .statement := by
  have hinside : (frame value result).Run (.value value.start) (vs ++ [.semicolon]) .statement :=
    h.toSemicolon (fun _ _ => rfl) hvalue hs
  exact .cons rfl (.cons rfl hinside)

theorem run_result (hresult : result.LeavesSemicolon) {rs : List Token} {s : T}
    (h : result.Run result.start rs s) (hs : result.final s = true) :
    (frame value result).Run .statement (.returnWord :: (rs ++ [.semicolon])) .closing := by
  have hinside : (frame value result).Run (.result result.start) (rs ++ [.semicolon]) .closing :=
    h.toSemicolon (fun _ _ => rfl) hresult hs
  exact .cons rfl hinside

theorem run_statements (hvalue : value.LeavesSemicolon) (hrec : Recognizes value Value)
    {ts : List Token} {body : List (Assignment V)} (h : Statements Value ts body) :
    (frame value result).Run .statement ts .statement := by
  induction h with
  | nil =>
      exact .nil _
  | @cons target vs ts v rest hv _ ih =>
      rcases hrec.accepts hv with ⟨s, hrun, hs⟩
      have hstatement : (frame value result).Run .statement
          (.ident target :: .assign :: (vs ++ [.semicolon])) .statement :=
        run_statement hvalue hrun hs target
      simpa using hstatement.append ih

end Accepts

/-! ### What is derived when a place is reached -/

section Reached

variable {S T V R : Type} (value : Acceptor S) (result : Acceptor T)
  (Value : List Token → V → Prop) (Result : List Token → R → Prop)

/-- The header with some statements. -/
def IsFront (ts : List Token) : Prop :=
  ∃ name params ss body, Statements Value ss body ∧ ts = headerTokens name params ++ ss

/-- What has been read when a place is reached. -/
def Reached : Place S T → List Token → Prop
  | .name, ts => ts = []
  | .opening, ts => ∃ name, ts = [.ident name]
  | .firstParam, ts => ∃ name, ts = [.ident name, .leftParen]
  | .afterParam, ts => ∃ name p more, ts = .ident name :: .leftParen :: nameTokens (p :: more)
  | .nextParam, ts => ∃ name p more,
      ts = .ident name :: .leftParen :: (nameTokens (p :: more) ++ [.comma])
  | .brace, ts => ∃ name params,
      ts = .ident name :: .leftParen :: (nameTokens params ++ [.rightParen])
  | .statement, ts => IsFront Value ts
  | .assign, ts => ∃ front x, IsFront Value front ∧ ts = front ++ [.ident x]
  | .value s, ts => ∃ front x vs, IsFront Value front ∧ value.Run value.start vs s ∧
      ts = front ++ .ident x :: .assign :: vs
  | .result s, ts => ∃ front rs, IsFront Value front ∧ result.Run result.start rs s ∧
      ts = front ++ .returnWord :: rs
  | .closing, ts => ∃ front rs r, IsFront Value front ∧ Result rs r ∧
      ts = front ++ .returnWord :: (rs ++ [.semicolon])
  | .done, ts => ∃ f, IsProgram Value Result ts f

variable {value result Value Result}

theorem Statements.concat {ts vs : List Token} {body : List (Assignment V)} {v : V}
    (h : Statements Value ts body) (hv : Value vs v) (target : String) :
    Statements Value (ts ++ .ident target :: .assign :: (vs ++ [.semicolon]))
      (body ++ [⟨target, v⟩]) := by
  induction h with
  | nil =>
      exact .cons hv .nil
  | @cons target' vs' ts v' rest hv' _ ih =>
      have hall : Statements Value _ (⟨target', v'⟩ :: _) := .cons hv' ih
      simpa using hall

theorem IsFront.concat {front vs : List Token} {v : V} (h : IsFront Value front)
    (hv : Value vs v) (target : String) :
    IsFront Value (front ++ .ident target :: .assign :: (vs ++ [.semicolon])) := by
  rcases h with ⟨name, params, ss, body, hss, rfl⟩
  exact ⟨name, params, _, _, hss.concat hv target, by simp⟩

theorem nameTokens_concat (p : String) (more : List String) (x : String) :
    nameTokens (p :: more) ++ [.comma, .ident x] = nameTokens (p :: (more ++ [x])) := by
  simp [nameTokens, moreTokens]

theorem Reached.step (hvalue : Recognizes value Value) (hresult : Recognizes result Result)
    {p p' : Place S T} {ts : List Token} {t : Token} (h : Reached value result Value Result p ts)
    (hstep : (frame value result).step p t = some p') :
    Reached value result Value Result p' (ts ++ [t]) := by
  simp only [frame] at hstep
  split at hstep
  · -- the function's name
    next x =>
      cases hstep
      cases h
      exact ⟨x, rfl⟩
  · cases hstep
    rcases h with ⟨name, rfl⟩
    exact ⟨name, rfl⟩
  · next x =>
      cases hstep
      rcases h with ⟨name, rfl⟩
      exact ⟨name, x, [], rfl⟩
  · cases hstep
    rcases h with ⟨name, rfl⟩
    exact ⟨name, [], rfl⟩
  · cases hstep
    rcases h with ⟨name, p, more, rfl⟩
    exact ⟨name, p, more, rfl⟩
  · cases hstep
    rcases h with ⟨name, p, more, rfl⟩
    exact ⟨name, p :: more, rfl⟩
  · next x =>
      cases hstep
      rcases h with ⟨name, p, more, rfl⟩
      refine ⟨name, p, more ++ [x], ?_⟩
      rw [← nameTokens_concat]
      simp
  · cases hstep
    rcases h with ⟨name, params, rfl⟩
    exact ⟨name, params, [], [], .nil, by simp [headerTokens]⟩
  · -- the target of a statement
    next x =>
      cases hstep
      exact ⟨ts, x, h, rfl⟩
  · cases hstep
    exact ⟨ts, [], h, .nil _, rfl⟩
  · cases hstep
    rcases h with ⟨front, x, hfront, rfl⟩
    exact ⟨front, x, [], hfront, .nil _, by simp⟩
  · -- a right-hand side ends with a semicolon or goes on
    rcases h with ⟨front, x, vs, hfront, hvs, rfl⟩
    rcases upToSemicolon_eq_some hstep with ⟨rfl, hfinal, rfl⟩ | ⟨s', hs', rfl⟩
    · rcases hvalue.derives hvs hfinal with ⟨v, hv⟩
      have hlonger := hfront.concat hv x
      simpa [Reached] using hlonger
    · exact ⟨front, x, vs ++ [t], hfront, hvs.append (.single hs'), by simp⟩
  · rcases h with ⟨front, rs, hfront, hrs, rfl⟩
    rcases upToSemicolon_eq_some hstep with ⟨rfl, hfinal, rfl⟩ | ⟨s', hs', rfl⟩
    · rcases hresult.derives hrs hfinal with ⟨r, hr⟩
      exact ⟨front, rs, r, hfront, hr, by simp⟩
    · exact ⟨front, rs ++ [t], hfront, hrs.append (.single hs'), by simp⟩
  · cases hstep
    rcases h with ⟨front, rs, r, ⟨name, params, ss, body, hss, rfl⟩, hr, rfl⟩
    have hall : IsProgram Value Result _ ⟨name, params, body, r⟩ := .intro hss hr
    exact ⟨_, by simpa using hall⟩
  · cases hstep

/-- From every place there is a way to the end of the function. -/
theorem frame_completes (hvalue : Recognizes value Value) (hresult : Recognizes result Result)
    (hv : value.LeavesSemicolon) (hr : result.LeavesSemicolon) (p : Place S T) :
    ∃ ts, (frame value result).Run p ts .done := by
  let m := frame value result
  -- the places from the last one back to the first, each with a way to the place after it
  have hclosing : ∃ ts, m.Run .closing ts .done := ⟨[.rightBrace], .single rfl⟩
  have hafter : ∀ {q q' : Place S T} {us : List Token}, m.Run q us q' → (∃ ts, m.Run q' ts .done) →
      ∃ ts, m.Run q ts .done :=
    fun hrun ⟨ts, hts⟩ => ⟨_, hrun.append hts⟩
  have hinresult : ∀ s, ∃ ts, m.Run (.result s) ts .done := by
    intro s
    rcases hresult.completes s with ⟨rs, s', hrs, hfinal⟩
    have hinside : m.Run (.result s) (rs ++ [.semicolon]) .closing :=
      hrs.toSemicolon (fun _ _ => rfl) hr hfinal
    exact hafter hinside hclosing
  have hstatement : ∃ ts, m.Run .statement ts .done :=
    hafter (.single (t := .returnWord) rfl) (hinresult _)
  have hinvalue : ∀ s, ∃ ts, m.Run (.value s) ts .done := by
    intro s
    rcases hvalue.completes s with ⟨vs, s', hvs, hfinal⟩
    have hinside : m.Run (.value s) (vs ++ [.semicolon]) .statement :=
      hvs.toSemicolon (fun _ _ => rfl) hv hfinal
    exact hafter hinside hstatement
  have hbrace : ∃ ts, m.Run .brace ts .done := hafter (.single (t := .leftBrace) rfl) hstatement
  have hparam : ∃ ts, m.Run .afterParam ts .done := hafter (.single (t := .rightParen) rfl) hbrace
  have hfirst : ∃ ts, m.Run .firstParam ts .done := hafter (.single (t := .rightParen) rfl) hbrace
  have hopening : ∃ ts, m.Run .opening ts .done := hafter (.single (t := .leftParen) rfl) hfirst
  -- wherever a name is missing, any name will do
  cases p with
  | name => exact hafter (.single (t := .ident Token.keyword) rfl) hopening
  | opening => exact hopening
  | firstParam => exact hfirst
  | afterParam => exact hparam
  | nextParam => exact hafter (.single (t := .ident Token.keyword) rfl) hparam
  | brace => exact hbrace
  | statement => exact hstatement
  | assign => exact hafter (.single (t := .assign) rfl) (hinvalue _)
  | value s => exact hinvalue s
  | result s => exact hinresult s
  | closing => exact hclosing
  | done => exact ⟨[], .nil _⟩

/-- The frame recognizes whole functions if its parts recognize theirs. -/
theorem recognizes_frame (hvalue : Recognizes value Value) (hresult : Recognizes result Result)
    (hv : value.LeavesSemicolon) (hr : result.LeavesSemicolon) :
    Recognizes (frame value result) (IsProgram Value Result) where
  accepts := by
    rintro _ _ ⟨hss, hrs⟩
    rcases hresult.accepts hrs with ⟨s, hrun, hs⟩
    have hstatements : (frame value result).Run .statement _ .statement :=
      run_statements hv hvalue hss
    have hbrace : (frame value result).Run .closing [.rightBrace] .done := .single rfl
    have hending := (run_result hr hrun hs).append hbrace
    refine ⟨.done, (run_headerTokens _ _).append (hstatements.append ?_), rfl⟩
    simpa using hending
  derives := by
    intro ts p hrun hfinal
    have hstart : Reached value result Value Result .name [] := rfl
    have hreached : Reached value result Value Result p ([] ++ ts) :=
      hrun.induct (Reached.step hvalue hresult) hstart
    cases p with
    | done => exact hreached
    | _ => cases hfinal
  completes := by
    intro p
    rcases frame_completes hvalue hresult hv hr p with ⟨ts, hts⟩
    exact ⟨ts, .done, hts, rfl⟩

end Reached

end Grammar

end StraightLine
