import StraightLine.Calc
import StraightLine.Identifier
import StraightLine.Proofs.Text
import Mathlib.Data.Int.Basic

/-!
# Printing — the written form determines the function

An operation is written with its operator at the place where no parenthesis is open and no operator
binds more weakly or, further to the right, equally strongly. There is one such place, so a text is
split into its operands in one way. Statements and headers are split at their separators, which
occur in no name and no expression.

* `Printing.balance` — how many parentheses are open;
* `Printing.Shape` — texts that can stand beside an operator of some level;
* `Printing.text_inj` — for expressions over identifiers;
* `Calc.Function.text_inj` — for functions whose names are identifiers.
-/

namespace StraightLine

namespace Printing

/-! ## Open parentheses -/

def weight (c : Char) : Int :=
  if c = '(' then 1 else if c = ')' then -1 else 0

/-- Parentheses that are open after a text. -/
def balance : List Char → Int
  | [] => 0
  | c :: cs => weight c + balance cs

@[simp]
theorem balance_nil : balance [] = 0 :=
  rfl

@[simp]
theorem balance_cons (c : Char) (cs : List Char) : balance (c :: cs) = weight c + balance cs :=
  rfl

@[simp]
theorem balance_append (a b : List Char) : balance (a ++ b) = balance a + balance b := by
  induction a with
  | nil =>
      simp
  | cons c a ih =>
      rw [List.cons_append, balance_cons, balance_cons, ih, Int.add_assoc]

theorem sign_injective : Function.Injective Operator.sign := by
  intro op op' h
  have hread := congrArg Operator.ofSign? h
  simpa using hread

theorem weight_sign (op : Operator) : weight op.sign = 0 := by
  cases op <;> decide

/-- A text that closes every parenthesis it opens, and in which every operator outside parentheses
binds at least as strongly as `level` says. -/
structure Shape (level : Nat) (cs : List Char) : Prop where
  closed : balance cs = 0
  opened : ∀ a b, cs = a ++ b → 0 ≤ balance a
  operators : ∀ a b (op : Operator), cs = a ++ op.sign :: b → balance a = 0 → level ≤ op.precedence

theorem Shape.mono {level level' : Nat} {cs : List Char} (h : Shape level cs)
    (hle : level' ≤ level) : Shape level' cs where
  closed := h.closed
  opened := h.opened
  operators a b op hcs ha := Nat.le_trans hle (h.operators a b op hcs ha)

/-- Nothing stands outside the parentheses. -/
theorem Shape.enclosed {level : Nat} {cs : List Char} (h : Shape level cs) :
    Shape 3 ('(' :: (cs ++ [')'])) := by
  -- between the outer parentheses at least one is open
  have hprefix : ∀ a b, '(' :: (cs ++ [')']) = a ++ b → a = [] ∨ 1 ≤ balance a ∨ b = [] := by
    intro a b hab
    rcases List.cons_eq_append_iff.1 hab with ⟨rfl, _⟩ | ⟨a', rfl, hcs⟩
    · exact Or.inl rfl
    · rcases List.append_eq_append_iff.1 hcs with ⟨m, rfl, hm⟩ | ⟨m, rfl, _⟩
      · rcases List.singleton_eq_append_iff.1 hm with ⟨rfl, _⟩ | ⟨_, rfl⟩
        · have hclosed := h.closed
          exact Or.inr (Or.inl (by simp [weight, hclosed]))
        · exact Or.inr (Or.inr rfl)
      · have hopened := h.opened a' m rfl
        exact Or.inr (Or.inl (by simp [weight]; omega))
  have hclosed : balance ('(' :: (cs ++ [')'])) = 0 := by
    simp [h.closed, weight]
  refine ⟨hclosed, ?_, ?_⟩
  · intro a b hab
    rcases hprefix a b hab with rfl | ha | rfl
    · exact Int.le_refl 0
    · omega
    · rw [List.append_nil] at hab
      have ha : balance a = 0 := hab ▸ hclosed
      omega
  · intro a b op hab ha
    rcases hprefix a _ hab with rfl | hpos | hnil
    · injection hab with hsign _
      exact absurd hsign (by cases op <;> decide)
    · omega
    · cases hnil

/-- A word contains neither parentheses nor operators. -/
theorem shape_word {cs : List Char} (h : ∀ c ∈ cs, Identifier.continues c = true) : Shape 3 cs := by
  have hweight : ∀ c, Identifier.continues c = true → weight c = 0 := by
    intro c hc
    unfold weight
    split
    · next heq =>
        subst heq
        exact absurd hc (by decide)
    · split
      · next heq =>
          subst heq
          exact absurd hc (by decide)
      · rfl
  have hbalance : ∀ a : List Char, (∀ c ∈ a, Identifier.continues c = true) → balance a = 0 := by
    intro a
    induction a with
    | nil =>
        intro _
        rfl
    | cons c a ih =>
        intro ha
        rw [balance_cons, hweight c (ha c List.mem_cons_self),
          ih fun d hd => ha d (List.mem_cons_of_mem _ hd)]
        rfl
  refine ⟨hbalance cs h, ?_, ?_⟩
  · rintro a b rfl
    have ha := hbalance a fun c hc => h c (List.mem_append_left _ hc)
    omega
  · rintro a b op rfl _
    have hop := h op.sign (List.mem_append_right _ List.mem_cons_self)
    exact absurd hop (by cases op <;> decide)

/-- The operands of an operation, the right one binding more strongly than its operator. -/
theorem Shape.binary {op : Operator} {l r : List Char} (hl : Shape op.precedence l)
    (hr : Shape (op.precedence + 1) r) : Shape op.precedence (l ++ op.sign :: r) := by
  refine ⟨?_, ?_, ?_⟩
  · simp [hl.closed, hr.closed, weight_sign]
  · intro a b hab
    rcases List.append_eq_append_iff.1 hab with ⟨m, rfl, hm⟩ | ⟨m, rfl, _⟩
    · rcases List.cons_eq_append_iff.1 hm with ⟨rfl, _⟩ | ⟨m', rfl, hr'⟩
      · simp [hl.closed]
      · have hopened := hr.opened m' b hr'
        simpa [hl.closed, weight_sign] using hopened
    · exact hl.opened a m rfl
  · -- the operator stands in the left operand, in the right one, or between them
    intro a b op' hab ha
    rcases List.append_eq_append_iff.1 hab with ⟨m, rfl, hm⟩ | ⟨m, rfl, hm⟩
    · rcases List.cons_eq_append_iff.1 hm with ⟨_, hsign⟩ | ⟨m', rfl, hr'⟩
      · injection hsign with hsign _
        rw [sign_injective hsign]
      · simp only [balance_append, balance_cons, hl.closed, weight_sign] at ha
        have := hr.operators m' b op' hr' (by omega)
        omega
    · rcases List.cons_eq_append_iff.1 hm with ⟨rfl, hsign⟩ | ⟨m', rfl, _⟩
      · injection hsign with hsign _
        rw [sign_injective hsign]
      · exact hl.operators a m' op' rfl ha

/-- An operation is split into its operands in one way. -/
theorem Shape.split_unique {op op' : Operator} {l r l' r' : List Char} (hl : Shape op.precedence l)
    (hr : Shape (op.precedence + 1) r) (hl' : Shape op'.precedence l')
    (hr' : Shape (op'.precedence + 1) r') (h : l ++ op.sign :: r = l' ++ op'.sign :: r') :
    l = l' ∧ op = op' ∧ r = r' := by
  -- of two operators the left one would bind more weakly, and the right one too
  have hlonger : ∀ {op op' : Operator} {l r m r' : List Char}, Shape op.precedence l →
      Shape (op.precedence + 1) r → Shape op'.precedence (l ++ op.sign :: m) →
      r ≠ m ++ op'.sign :: r' := by
    intro op op' l r m r' hl hr hl' hsplit
    have hm : balance m = 0 := by
      have hclosed := hl'.closed
      simp only [balance_append, balance_cons, hl.closed, weight_sign] at hclosed
      omega
    have hright := hr.operators m r' op' hsplit hm
    have hleft := hl'.operators l m op rfl hl.closed
    omega
  rcases List.append_eq_append_iff.1 h with ⟨m, rfl, hm⟩ | ⟨m, rfl, hm⟩
  · rcases List.cons_eq_append_iff.1 hm with ⟨rfl, hsign⟩ | ⟨m', rfl, hsplit⟩
    · injection hsign with hsign htail
      exact ⟨(List.append_nil l).symm, (sign_injective hsign).symm, htail.symm⟩
    · exact absurd hsplit (hlonger hl hr hl')
  · rcases List.cons_eq_append_iff.1 hm with ⟨rfl, hsign⟩ | ⟨m', rfl, hsplit⟩
    · injection hsign with hsign htail
      exact ⟨List.append_nil l', sign_injective hsign, htail⟩
    · exact absurd hsplit (hlonger hl' hr' hl)

/-! ## Expressions -/

/-- How strongly the outermost operator binds; a variable counts as stronger than all. -/
def levelOf : Expr → Nat
  | .var _ => 3
  | .binary op .. => op.precedence

theorem precedence_le (op : Operator) : op.precedence ≤ 2 := by
  cases op <;> decide

/-- An operand without parentheses binds at least as strongly as its place requires. -/
theorem le_levelOf {op : Operator} {onRight : Bool} {e : Expr}
    (h : e.needsParens op onRight = false) : op.precedence + onRight.toNat ≤ levelOf e := by
  cases e with
  | var x =>
      have := precedence_le op
      have := Bool.toNat_le onRight
      simp only [levelOf]
      omega
  | binary op' left right =>
      cases onRight with
      | false =>
          simpa [Expr.needsParens, levelOf] using h
      | true =>
          simp only [Expr.needsParens, Bool.true_and, Bool.or_eq_false_iff, decide_eq_false_iff_not,
            beq_eq_false_iff_ne] at h
          simp only [levelOf, Bool.toNat_true]
          omega

/-- An operand as it is written. -/
def operandChars (needed : Bool) (e : Expr) : List Char :=
  (Expr.enclose needed e.text).toList

theorem toList_text_binary (op : Operator) (left right : Expr) :
    (Expr.binary op left right).text.toList =
      operandChars (left.needsParens op false) left ++
        op.sign :: operandChars (right.needsParens op true) right := by
  simp [Expr.text, operandChars, Operator.symbol]

theorem operandChars_true (e : Expr) : operandChars true e = '(' :: (e.text.toList ++ [')']) := by
  simp [operandChars, Expr.enclose]

theorem operandChars_false (e : Expr) : operandChars false e = e.text.toList := by
  simp [operandChars, Expr.enclose]

theorem continues_of_isIdentifier {x : String} (h : isIdentifier x = true) :
    x.toList ≠ [] ∧ ∀ c ∈ x.toList, Identifier.continues c = true := by
  unfold isIdentifier at h
  split at h
  · cases h
  · next c rest hx =>
      rw [Bool.and_eq_true, List.all_eq_true] at h
      rw [hx]
      exact ⟨List.cons_ne_nil _ _, List.forall_mem_cons.2 ⟨Identifier.continues_of_opens h.1, h.2⟩⟩

/-- Every variable is an identifier. -/
def Named (e : Expr) : Prop :=
  ∀ x ∈ e.reads, isIdentifier x = true

theorem shape_operand (op : Operator) (onRight : Bool) {e : Expr}
    (h : Shape (levelOf e) e.text.toList) :
    Shape (op.precedence + onRight.toNat) (operandChars (e.needsParens op onRight) e) := by
  cases hneeded : e.needsParens op onRight with
  | true =>
      have := precedence_le op
      have := Bool.toNat_le onRight
      rw [operandChars_true]
      exact h.enclosed.mono (by omega)
  | false =>
      rw [operandChars_false]
      exact h.mono (le_levelOf hneeded)

theorem shape_text {e : Expr} (h : Named e) : Shape (levelOf e) e.text.toList := by
  induction e with
  | var x =>
      exact shape_word (continues_of_isIdentifier (h x List.mem_cons_self)).2
  | binary op left right ihl ihr =>
      rw [toList_text_binary]
      exact (shape_operand op false (ihl fun x hx => h x (List.mem_append_left _ hx))).binary
        (shape_operand op true (ihr fun x hx => h x (List.mem_append_right _ hx)))

/-- An operand in parentheses is not written like one without. -/
theorem enclosed_ne_text {cs : List Char} {level : Nat} (hcs : Shape level cs) {e : Expr}
    (h : Named e) : '(' :: (cs ++ [')']) ≠ e.text.toList := by
  intro heq
  cases e with
  | var x =>
      have hword := (continues_of_isIdentifier (h x List.mem_cons_self)).2 '('
        (heq ▸ List.mem_cons_self)
      exact absurd hword (by decide)
  | binary op left right =>
      -- the operator would stand inside the parentheses and outside all of them
      rw [toList_text_binary] at heq
      have hleft := shape_operand op false
        (shape_text fun x hx => h x (List.mem_append_left _ hx))
      have hlevel := hcs.enclosed.operators _ _ op heq hleft.closed
      have := precedence_le op
      omega

theorem operandChars_inj {e e' : Expr} (he : Named e) (he' : Named e') {needed needed' : Bool}
    (hinj : e.text.toList = e'.text.toList → e = e')
    (h : operandChars needed e = operandChars needed' e') : e = e' := by
  cases needed <;> cases needed' <;>
    simp only [operandChars_true, operandChars_false] at h
  · exact hinj h
  · exact absurd h.symm (enclosed_ne_text (shape_text he') he)
  · exact absurd h (enclosed_ne_text (shape_text he) he')
  · injection h with _ h
    exact hinj (List.append_cancel_right h)

/-- A word is no operation. -/
theorem text_var_ne_binary {x : String} (hx : isIdentifier x = true) (op : Operator)
    (left right : Expr) : (Expr.var x).text.toList ≠ (Expr.binary op left right).text.toList := by
  intro h
  rw [toList_text_binary] at h
  have hsign : op.sign ∈ x.toList := by
    change op.sign ∈ (Expr.var x).text.toList
    rw [h]
    exact List.mem_append_right _ List.mem_cons_self
  have := (continues_of_isIdentifier hx).2 _ hsign
  exact absurd this (by cases op <;> decide)

theorem text_inj {e e' : Expr} (he : Named e) (he' : Named e')
    (h : e.text.toList = e'.text.toList) : e = e' := by
  induction e generalizing e' with
  | var x =>
      cases e' with
      | var y =>
          exact congrArg Expr.var (String.toList_inj.1 h)
      | binary op left right =>
          exact absurd h (text_var_ne_binary (he x List.mem_cons_self) op left right)
  | binary op left right ihl ihr =>
      cases e' with
      | var y =>
          exact absurd h.symm (text_var_ne_binary (he' y List.mem_cons_self) op left right)
      | binary op' left' right' =>
          have hleft : Named left := fun x hx => he x (List.mem_append_left _ hx)
          have hright : Named right := fun x hx => he x (List.mem_append_right _ hx)
          have hleft' : Named left' := fun x hx => he' x (List.mem_append_left _ hx)
          have hright' : Named right' := fun x hx => he' x (List.mem_append_right _ hx)
          rw [toList_text_binary, toList_text_binary] at h
          rcases Shape.split_unique (shape_operand op false (shape_text hleft))
            (shape_operand op true (shape_text hright))
            (shape_operand op' false (shape_text hleft'))
            (shape_operand op' true (shape_text hright')) h with ⟨hl, rfl, hr⟩
          rw [operandChars_inj hleft hleft' (ihl hleft hleft') hl,
            operandChars_inj hright hright' (ihr hright hright') hr]

/-! ## Functions -/

/-- The characters that stand between the parts of a function. -/
def separators : List Char :=
  ['(', ')', '{', '}', ',', ';', '=', ' ']

theorem notMem_word {x : String} (h : isIdentifier x = true) : ∀ c ∈ separators, c ∉ x.toList := by
  intro c hc hmem
  have hseparators : (separators.all fun c => !Identifier.continues c) = true := by decide
  have hcontinues := (continues_of_isIdentifier h).2 c hmem
  have hc := List.all_eq_true.1 hseparators c hc
  rw [hcontinues] at hc
  cases hc

theorem notMem_text {e : Expr} (h : Named e) : ∀ c ∈ [';', '=', ' '], c ∉ e.text.toList := by
  induction e with
  | var x =>
      have hsub : [';', '=', ' '] ⊆ separators := by simp [separators]
      intro c hc
      exact notMem_word (h x List.mem_cons_self) c (hsub hc)
  | binary op left right ihl ihr =>
      have hoperand : ∀ {e : Expr} {needed : Bool}, (∀ c ∈ [';', '=', ' '], c ∉ e.text.toList) →
          ∀ c ∈ [';', '=', ' '], c ∉ operandChars needed e := by
        intro e needed he c hc
        cases needed with
        | true =>
            rw [operandChars_true, List.mem_cons, List.mem_append, List.mem_singleton]
            rintro (rfl | hmem | rfl)
            · exact absurd hc (by decide)
            · exact he c hc hmem
            · exact absurd hc (by decide)
        | false =>
            rw [operandChars_false]
            exact he c hc
      intro c hc
      rw [toList_text_binary, List.mem_append, List.mem_cons]
      rintro (hmem | rfl | hmem)
      · exact hoperand (ihl fun x hx => h x (List.mem_append_left _ hx)) c hc hmem
      · exact absurd hc (by cases op <;> decide)
      · exact hoperand (ihr fun x hx => h x (List.mem_append_right _ hx)) c hc hmem

/-- Parameters with commas between them. -/
def paramChars (params : List String) : List Char :=
  (", ".intercalate params).toList

theorem paramChars_cons_cons (p q : String) (rest : List String) :
    paramChars (p :: q :: rest) = p.toList ++ ',' :: ' ' :: paramChars (q :: rest) := by
  simp [paramChars, String.intercalate_cons_cons]

theorem paramChars_singleton (p : String) : paramChars [p] = p.toList := by
  simp [paramChars]

theorem paramChars_ne_nil {p : String} (hp : isIdentifier p = true) (rest : List String) :
    paramChars (p :: rest) ≠ [] := by
  have hne := (continues_of_isIdentifier hp).1
  cases rest with
  | nil =>
      rwa [paramChars_singleton]
  | cons q rest =>
      rw [paramChars_cons_cons]
      exact List.append_ne_nil_of_left_ne_nil hne _

theorem notMem_paramChars {params : List String} (h : ∀ p ∈ params, isIdentifier p = true) :
    ')' ∉ paramChars params := by
  induction params with
  | nil =>
      simp [paramChars]
  | cons p rest ih =>
      have hp := notMem_word (h p List.mem_cons_self) ')' (by decide)
      have ih := ih fun q hq => h q (List.mem_cons_of_mem _ hq)
      cases rest with
      | nil =>
          rwa [paramChars_singleton]
      | cons q rest =>
          rw [paramChars_cons_cons]
          simp [hp, ih]

/-- A single parameter is written without a comma. -/
theorem paramChars_singleton_ne {p : String} (hp : isIdentifier p = true) (q r : String)
    (rest : List String) : paramChars [p] ≠ paramChars (q :: r :: rest) := by
  intro h
  rw [paramChars_singleton, paramChars_cons_cons] at h
  exact absurd (h ▸ List.mem_append_right _ List.mem_cons_self)
    (notMem_word hp ',' (by decide))

theorem paramChars_inj {params params' : List String}
    (h : ∀ p ∈ params, isIdentifier p = true) (h' : ∀ p ∈ params', isIdentifier p = true)
    (heq : paramChars params = paramChars params') : params = params' := by
  induction params generalizing params' with
  | nil =>
      cases params' with
      | nil =>
          rfl
      | cons p rest =>
          exact absurd heq.symm (paramChars_ne_nil (h' p List.mem_cons_self) rest)
  | cons p rest ih =>
      have hp := h p List.mem_cons_self
      have hrest : ∀ q ∈ rest, isIdentifier q = true := fun q hq => h q (List.mem_cons_of_mem _ hq)
      cases params' with
      | nil =>
          exact absurd heq (paramChars_ne_nil hp rest)
      | cons p' rest' =>
          have hp' := h' p' List.mem_cons_self
          have hrest' : ∀ q ∈ rest', isIdentifier q = true :=
            fun q hq => h' q (List.mem_cons_of_mem _ hq)
          -- a comma follows the first parameter exactly if there is a second one
          cases rest with
          | nil =>
              cases rest' with
              | nil =>
                  rw [paramChars_singleton, paramChars_singleton, String.toList_inj] at heq
                  rw [heq]
              | cons q' rest' =>
                  exact absurd heq (paramChars_singleton_ne hp p' q' rest')
          | cons q rest =>
              cases rest' with
              | nil =>
                  exact absurd heq.symm (paramChars_singleton_ne hp' p q rest)
              | cons q' rest' =>
                  rw [paramChars_cons_cons, paramChars_cons_cons] at heq
                  rcases Text.split_first (notMem_word hp ',' (by decide))
                    (notMem_word hp' ',' (by decide)) heq with ⟨hname, htail⟩
                  injection htail with _ htail
                  rw [String.toList_inj.1 hname, ih hrest hrest' htail]

/-- The statements and the result, up to the end of the function. -/
def bodyChars (result : Expr) : List (Assignment Expr) → List Char
  | [] => ['r', 'e', 't', 'u', 'r', 'n', ' '] ++ result.text.toList ++ [';', '}']
  | s :: rest =>
      s.target.toList ++ '=' :: (s.value.text.toList ++ ';' :: ' ' :: bodyChars result rest)

theorem toList_text_function (f : Calc.Function) : f.text.toList =
    f.name.toList ++ '(' :: (paramChars f.params ++ ')' :: '{' :: bodyChars f.result f.body) := by
  have hbody : ∀ body : List (Assignment Expr),
      (String.join (body.map fun s => Calc.statementText s ++ "; ")).toList ++
        ("return " ++ f.result.text ++ ";\x7d").toList = bodyChars f.result body := by
    intro body
    induction body with
    | nil =>
        simp [bodyChars]
    | cons s rest ih =>
        simp only [List.map_cons, String.join_cons, String.toList_append, List.append_assoc,
          Calc.statementText, bodyChars] at ih ⊢
        rw [ih]
        rfl
  rw [← hbody]
  simp [Calc.Function.text, Program.headerText, paramChars]

/-- Targets and variables are identifiers. -/
def NamedBody (body : List (Assignment Expr)) : Prop :=
  ∀ s ∈ body, isIdentifier s.target = true ∧ Named s.value

theorem bodyChars_nil_ne_cons {result : Expr} (hresult : Named result) {s : Assignment Expr}
    {chars : List Char} :
    bodyChars result [] ≠ s.target.toList ++ '=' :: (s.value.text.toList ++ ';' :: chars) := by
  intro h
  have hnotin : '=' ∉ bodyChars result [] := by
    have := notMem_text hresult '=' (by decide)
    simp [bodyChars, this]
  rw [h] at hnotin
  exact hnotin (List.mem_append_right _ List.mem_cons_self)

theorem bodyChars_inj {body body' : List (Assignment Expr)} {result result' : Expr}
    (h : NamedBody body) (h' : NamedBody body') (hresult : Named result) (hresult' : Named result')
    (heq : bodyChars result body = bodyChars result' body') : body = body' ∧ result = result' := by
  induction body generalizing body' with
  | nil =>
      cases body' with
      | nil =>
          have heq := List.append_cancel_left (List.append_cancel_right heq)
          exact ⟨rfl, text_inj hresult hresult' heq⟩
      | cons s rest =>
          exact absurd heq (bodyChars_nil_ne_cons hresult)
  | cons s rest ih =>
      cases body' with
      | nil =>
          exact absurd heq.symm (bodyChars_nil_ne_cons hresult')
      | cons s' rest' =>
          rcases h s List.mem_cons_self with ⟨htarget, hvalue⟩
          rcases h' s' List.mem_cons_self with ⟨htarget', hvalue'⟩
          -- the target ends at the first `=`, and the value at the first `;` after it
          rcases Text.split_first (notMem_word htarget '=' (by decide))
            (notMem_word htarget' '=' (by decide)) heq with ⟨hname, heq⟩
          rcases Text.split_first (notMem_text hvalue ';' (by decide))
            (notMem_text hvalue' ';' (by decide)) heq with ⟨htext, heq⟩
          injection heq with _ heq
          rcases ih (fun t ht => h t (List.mem_cons_of_mem _ ht))
            (fun t ht => h' t (List.mem_cons_of_mem _ ht)) heq with ⟨rfl, rfl⟩
          have htargets := String.toList_inj.1 hname
          have hvalues := text_inj hvalue hvalue' htext
          cases s
          cases s'
          cases htargets
          cases hvalues
          exact ⟨rfl, rfl⟩

end Printing

/-- All names of the function are identifiers. -/
structure Calc.Function.Named (f : Calc.Function) : Prop where
  name : isIdentifier f.name = true
  params : ∀ p ∈ f.params, isIdentifier p = true
  body : Printing.NamedBody f.body
  result : Printing.Named f.result

/-- Two functions over identifiers that are written alike are the same. -/
theorem Calc.Function.text_inj {f g : Calc.Function} (hf : f.Named) (hg : g.Named)
    (h : f.text = g.text) : f = g := by
  have h := congrArg String.toList h
  rw [Printing.toList_text_function, Printing.toList_text_function] at h
  rcases Text.split_first (Printing.notMem_word hf.name '(' (by decide))
    (Printing.notMem_word hg.name '(' (by decide)) h with ⟨hname, h⟩
  rcases Text.split_first (Printing.notMem_paramChars hf.params)
    (Printing.notMem_paramChars hg.params) h with ⟨hparams, h⟩
  injection h with _ h
  rcases Printing.bodyChars_inj hf.body hg.body hf.result hg.result h with ⟨hbody, hresult⟩
  have hname := String.toList_inj.1 hname
  have hparams := Printing.paramChars_inj hf.params hg.params hparams
  cases f
  cases g
  cases hname
  cases hparams
  cases hbody
  cases hresult
  rfl

end StraightLine
