import StraightLine.Proofs.Grammar.Acceptor

/-!
# Prefix — the acceptors of both languages

Inside an expression it is enough to know how many parentheses are open and whether an operand or an
operator comes next, since an operator of either precedence may follow every operand. The levels of
the grammar only decide what belongs together.

* `Calc.acceptor`, `Calc.recognizes_function` — expressions and Calc functions;
* `Tac.valueAcceptor`, `Tac.resultAcceptor`, `Tac.recognizes_function` — the parts of Tac functions,
  and these functions.
-/

namespace StraightLine

open Grammar

/-! ## Calc -/

namespace Calc

/-- What comes next, inside so many parentheses. -/
inductive Place where
  | operand (opened : Nat)
  | operator (opened : Nat)
  deriving DecidableEq

def acceptor : Acceptor Place where
  start := .operand 0
  step
    | .operand k, .ident _ => some (.operator k)
    | .operand k, .leftParen => some (.operand (k + 1))
    | .operator k, .op sign => (Operator.ofSign? sign).map fun _ => .operand k
    | .operator (k + 1), .rightParen => some (.operator k)
    | _, _ => none
  final p := p == .operator 0

theorem leavesSemicolon_acceptor : acceptor.LeavesSemicolon := by
  intro p
  cases p <;> rfl

theorem acceptor_step_op (k : Nat) (op : Operator) :
    acceptor.step (.operator k) (.op op.sign) = some (.operand k) := by
  simp [acceptor]

theorem run_of_derives {level : Nat} {ts : List Token} {e : Expr} (h : Derives level ts e)
    (k : Nat) : acceptor.Run (.operand k) ts (.operator k) := by
  induction h generalizing k with
  | name x =>
      exact .single rfl
  | parens _ ih =>
      exact .cons rfl ((ih (k + 1)).append (.single rfl))
  | atom _ ih =>
      exact ih k
  | term _ ih =>
      exact ih k
  | chain op _ _ ihl ihr =>
      exact (ihl k).append (.cons (acceptor_step_op k op) (ihr k))

/-! ### Unfinished expressions -/

/-- Tokens that every atom completes to an expression. -/
def Leads (head : List Token) : Prop :=
  ∀ {ts : List Token} {e : Expr}, Derives 3 ts e → ∃ e', Derives 1 (head ++ ts) e'

theorem leads_nil : Leads [] :=
  fun h => ⟨_, .term (.atom h)⟩

theorem Derives.chain_of_precedence {op : Operator} {level : Nat} {ls rs : List Token} {l r : Expr}
    (hop : op.precedence = level) (hl : Derives level ls l) (hr : Derives (level + 1) rs r) :
    Derives level (ls ++ .op op.sign :: rs) (.binary op l r) := by
  subst hop
  exact .chain op hl hr

/-- An operator of either precedence may follow an expression. A stronger one takes the last term
as its operand. -/
theorem leads_op {ts : List Token} {e : Expr} (h : Derives 1 ts e) (op : Operator) :
    Leads (ts ++ [.op op.sign]) := by
  intro us a ha
  rw [List.append_assoc, List.singleton_append]
  have hlevel : op.precedence = 1 ∨ op.precedence = 2 := by
    cases op <;> simp [Operator.precedence]
  rcases hlevel with hweak | hstrong
  · exact ⟨_, .chain_of_precedence hweak h (.atom ha)⟩
  · generalize hone : 1 = level at h
    cases h with
    | name x =>
        cases hone
    | parens _ =>
        cases hone
    | atom _ =>
        cases hone
    | term h =>
        exact ⟨_, .term (.chain_of_precedence hstrong h ha)⟩
    | @chain op' ls rs l r hl hr =>
        -- the operator before it is weak, so its right operand grows
        rw [← hone] at hl hr ⊢
        have hlonger := Derives.chain_of_precedence hstrong hr ha
        have hall := Derives.chain_of_precedence hone.symm hl hlonger
        exact ⟨_, by simpa using hall⟩

/-- The tokens before the expression in the innermost of the open parentheses. -/
inductive Opens : Nat → List Token → Prop where
  | outside : Opens 0 []
  | inside {k : Nat} {outer head : List Token} :
      Opens k outer → Leads head → Opens (k + 1) (outer ++ (head ++ [.leftParen]))

/-- What has been read when a place is reached. -/
def Reached : Place → List Token → Prop
  | .operand k, ts => ∃ outer head, Opens k outer ∧ Leads head ∧ ts = outer ++ head
  | .operator k, ts => ∃ outer inner e, Opens k outer ∧ Derives 1 inner e ∧ ts = outer ++ inner

theorem Reached.step {p p' : Place} {ts : List Token} {t : Token} (h : Reached p ts)
    (hstep : acceptor.step p t = some p') : Reached p' (ts ++ [t]) := by
  simp only [acceptor] at hstep
  split at hstep
  · next k x =>
      cases hstep
      rcases h with ⟨outer, head, houter, hhead, rfl⟩
      rcases hhead (.name x) with ⟨e, he⟩
      exact ⟨outer, _, e, houter, he, by simp⟩
  · -- what stands before the parenthesis waits for it to be closed
    cases hstep
    rcases h with ⟨outer, head, houter, hhead, rfl⟩
    exact ⟨_, [], .inside houter hhead, leads_nil, by simp⟩
  · next k sign =>
      rcases Option.map_eq_some_iff.1 hstep with ⟨op, hop, rfl⟩
      rcases h with ⟨outer, inner, e, houter, hinner, rfl⟩
      rw [Operator.ofSign?_eq_some hop]
      exact ⟨outer, _, houter, leads_op hinner op, by simp⟩
  · -- the parentheses turn what is inside them into an atom
    cases hstep
    rcases h with ⟨_, inner, e, houter, hinner, rfl⟩
    cases houter with
    | @inside _ outer head houter hhead =>
        rcases hhead (.parens hinner) with ⟨e', he'⟩
        exact ⟨outer, _, e', houter, he', by simp⟩
  · cases hstep

theorem acceptor_completes (p : Place) : ∃ ts, acceptor.Run p ts (.operator 0) := by
  -- close what is open, after an operand if one is missing
  have hoperator : ∀ k, ∃ ts, acceptor.Run (.operator k) ts (.operator 0) := by
    intro k
    induction k with
    | zero =>
        exact ⟨[], .nil _⟩
    | succ k ih =>
        rcases ih with ⟨ts, hts⟩
        exact ⟨.rightParen :: ts, .cons rfl hts⟩
  cases p with
  | operand k =>
      rcases hoperator k with ⟨ts, hts⟩
      exact ⟨.ident Token.keyword :: ts, .cons rfl hts⟩
  | operator k =>
      exact hoperator k

theorem recognizes_expression : Recognizes acceptor (Derives 1) where
  accepts := fun h => ⟨_, run_of_derives h 0, rfl⟩
  derives := by
    intro ts p hrun hfinal
    have hstart : Reached (.operand 0) [] := ⟨[], [], .outside, leads_nil, rfl⟩
    have hreached : Reached p ([] ++ ts) := hrun.induct Reached.step hstart
    rw [eq_of_beq hfinal] at hreached
    rcases hreached with ⟨outer, inner, e, houter, hinner, hts⟩
    cases houter
    rw [List.nil_append, List.nil_append] at hts
    exact ⟨e, hts ▸ hinner⟩
  completes := by
    intro p
    rcases acceptor_completes p with ⟨ts, hts⟩
    exact ⟨ts, _, hts, rfl⟩

theorem recognizes_function : Recognizes (frame acceptor acceptor) IsFunction :=
  recognizes_frame recognizes_expression recognizes_expression leavesSemicolon_acceptor
    leavesSemicolon_acceptor

end Calc

/-! ## Tac -/

namespace Tac

/-- What comes next in a right-hand side. -/
inductive Place where
  | left
  | operator
  | right
  | full
  deriving DecidableEq

def valueAcceptor : Acceptor Place where
  start := .left
  step
    | .left, .ident _ => some .operator
    | .operator, .op sign => (Operator.ofSign? sign).map fun _ => .right
    | .right, .ident _ => some .full
    | _, _ => none
  final
    | .operator | .full => true
    | .left | .right => false

/-- The place says whether the name has been read. -/
def resultAcceptor : Acceptor Bool where
  start := false
  step
    | false, .ident _ => some true
    | _, _ => none
  final := id

theorem leavesSemicolon_valueAcceptor : valueAcceptor.LeavesSemicolon := by
  intro p
  cases p <;> rfl

theorem leavesSemicolon_resultAcceptor : resultAcceptor.LeavesSemicolon := by
  intro p
  cases p <;> rfl

/-- What has been read when a place is reached. -/
def Reached : Place → List Token → Prop
  | .left, ts => ts = []
  | .operator, ts => ∃ x, ts = [.ident x]
  | .right, ts => ∃ x op, ts = [.ident x, .op (Operator.sign op)]
  | .full, ts => ∃ v, Derives ts v

theorem Reached.step {p p' : Place} {ts : List Token} {t : Token} (h : Reached p ts)
    (hstep : valueAcceptor.step p t = some p') : Reached p' (ts ++ [t]) := by
  simp only [valueAcceptor] at hstep
  split at hstep
  · next x =>
      cases hstep
      cases h
      exact ⟨x, rfl⟩
  · next sign =>
      rcases Option.map_eq_some_iff.1 hstep with ⟨op, hop, rfl⟩
      rcases h with ⟨x, rfl⟩
      rw [Operator.ofSign?_eq_some hop]
      exact ⟨x, op, rfl⟩
  · next y =>
      cases hstep
      rcases h with ⟨x, op, rfl⟩
      exact ⟨_, .binary op x y⟩
  · cases hstep

theorem recognizes_value : Recognizes valueAcceptor Derives where
  accepts := by
    intro ts v h
    cases h with
    | copy x =>
        exact ⟨.operator, .single rfl, rfl⟩
    | binary op x y =>
        have hop : valueAcceptor.step .operator (.op op.sign) = some .right := by
          simp [valueAcceptor]
        exact ⟨.full, .cons rfl (.cons hop (.single rfl)), rfl⟩
  derives := by
    intro ts p hrun hfinal
    have hstart : Reached .left [] := rfl
    have hreached : Reached p ([] ++ ts) := hrun.induct Reached.step hstart
    cases p with
    | operator =>
        rcases hreached with ⟨x, hx⟩
        rw [List.nil_append] at hx
        rw [hx]
        exact ⟨_, .copy x⟩
    | full =>
        exact hreached
    | _ =>
        cases hfinal
  completes := by
    intro p
    cases p with
    | left =>
        exact ⟨[.ident Token.keyword], .operator, .single rfl, rfl⟩
    | operator =>
        exact ⟨[], .operator, .nil _, rfl⟩
    | right =>
        exact ⟨[.ident Token.keyword], .full, .single rfl, rfl⟩
    | full =>
        exact ⟨[], .full, .nil _, rfl⟩

theorem recognizes_result : Recognizes resultAcceptor DerivesResult where
  accepts := by
    rintro ts x ⟨⟩
    exact ⟨true, .single rfl, rfl⟩
  derives := by
    intro ts p hrun hfinal
    cases hrun with
    | nil =>
        cases hfinal
    | @cons _ s' _ t ts hstep hrun =>
        cases t with
        | ident x =>
            cases hstep
            cases hrun with
            | nil =>
                exact ⟨x, .name x⟩
            | cons hstep _ =>
                cases hstep
        | _ =>
            cases hstep
  completes := by
    intro p
    cases p with
    | false =>
        exact ⟨[.ident Token.keyword], true, .single rfl, rfl⟩
    | true =>
        exact ⟨[], true, .nil _, rfl⟩

theorem recognizes_function : Recognizes (frame valueAcceptor resultAcceptor) IsFunction :=
  recognizes_frame recognizes_value recognizes_result leavesSemicolon_valueAcceptor
    leavesSemicolon_resultAcceptor

end Tac

end StraightLine
