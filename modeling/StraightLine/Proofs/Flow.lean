import Mathlib.Logic.Relation
import StraightLine.Proofs.Definitions

/-!
# Flow — which statements a result is made of

A read has the value of the last statement before it that assigns the name. Along such reads the
value of a statement flows into later ones, and at last into the result. Over trees nothing is lost
on the way: if the right-hand side of one statement is exchanged for one with another tree, exactly
the names into which its value flows have another tree, and all others the same.

* `Flow.Provides`, `Flow.Feeds` — the statement that a read refers to, and the statements that refer
  to it;
* `Flow.Reaches`, `Calc.Function.FlowsToResult` — chains of such reads; both are decidable;
* `Flow.reaches_succ` — how the names that a statement reaches change with the next statement;
* `Flow.DifferOn` — two runs over trees that differ on some of the names;
* `Calc.Function.unfolded_withStatement` — when the exchange of a right-hand side shows in the
  result.
-/

namespace StraightLine

/-- The same program with another statement at place `i`. -/
def Program.withStatement {V R : Type} (p : Program V R) (i : Nat) (s : Assignment V) :
    Program V R :=
  { p with body := p.body.set i s }

theorem Program.targets_withStatement {V R : Type} {p : Program V R} {i : Nat} {s s' : Assignment V}
    (hs : p.body[i]? = some s) (htarget : s'.target = s.target) :
    (p.withStatement i s').targets = p.targets := by
  rcases List.getElem?_eq_some_iff.1 hs with ⟨hi, rfl⟩
  calc
    (p.withStatement i s').targets
        = p.targets.set i s'.target := List.map_set
    _ = (p.body.set i p.body[i]).map Assignment.target := by
          rw [htarget, List.map_set]
          rfl
    _ = p.targets := by
          rw [List.set_getElem_self]
          rfl

namespace Flow

variable {body : List (Assignment Expr)} {i j k : Nat} {s : Assignment Expr} {x : String}

/-! ## Chains of reads -/

/-- Statement `i` is the last one before place `k` that assigns `x`. -/
structure Provides (body : List (Assignment Expr)) (i : Nat) (x : String) (k : Nat) : Prop where
  before : i < k
  assigns : ∃ s, body[i]? = some s ∧ s.target = x
  latest : ∀ j s, i < j → j < k → body[j]? = some s → s.target ≠ x

/-- Statement `k` reads a name that has the value of statement `i` there. -/
def Feeds (body : List (Assignment Expr)) (i k : Nat) : Prop :=
  ∃ s, body[k]? = some s ∧ ∃ x ∈ s.value.reads, Provides body i x k

/-- Before place `k`, the value of statement `i` is part of the value of `x`. -/
def Reaches (body : List (Assignment Expr)) (i : Nat) (x : String) (k : Nat) : Prop :=
  ∃ j, Provides body j x k ∧ Relation.ReflTransGen (Feeds body) i j

/-! ## One more statement -/

/-- A place where `x` is not assigned changes nothing for `x`. -/
theorem provides_succ_of_ne (h : ∀ s, body[k]? = some s → s.target ≠ x) :
    Provides body i x (k + 1) ↔ Provides body i x k := by
  constructor
  · intro hprovides
    have hne : i ≠ k := by
      rintro rfl
      rcases hprovides.assigns with ⟨s, hs, htarget⟩
      exact h s hs htarget
    have hlt := hprovides.before
    exact ⟨by omega, hprovides.assigns,
      fun j s hij hj hs => hprovides.latest j s hij (Nat.lt_succ_of_lt hj) hs⟩
  · intro hprovides
    refine ⟨Nat.lt_succ_of_lt hprovides.before, hprovides.assigns, fun j s hij hj hs => ?_⟩
    rcases Nat.lt_succ_iff_lt_or_eq.1 hj with hj | rfl
    · exact hprovides.latest j s hij hj hs
    · exact h s hs

/-- The next statement provides its own target, and the others provide the other names. -/
theorem provides_succ (hs : body[k]? = some s) :
    Provides body i x (k + 1) ↔ if s.target = x then i = k else Provides body i x k := by
  split
  · next htarget =>
      constructor
      · intro hprovides
        have hlt := hprovides.before
        by_contra hne
        exact hprovides.latest k s (by omega) (Nat.lt_succ_self k) hs htarget
      · rintro rfl
        exact ⟨Nat.lt_succ_self i, ⟨s, hs, htarget⟩, fun j _ hij hj _ => absurd hij (by omega)⟩
  · next htarget =>
      refine provides_succ_of_ne fun t ht => ?_
      rw [hs] at ht
      cases ht
      exact htarget

theorem reaches_iff_of_reads (hs : body[k]? = some s) :
    Relation.ReflTransGen (Feeds body) i k ↔ i = k ∨ ∃ x ∈ s.value.reads, Reaches body i x k := by
  rw [Relation.ReflTransGen.cases_tail_iff, eq_comm]
  refine or_congr_right ?_
  constructor
  · rintro ⟨j, hij, t, ht, x, hx, hprovides⟩
    rw [hs] at ht
    cases ht
    exact ⟨x, hx, j, hprovides, hij⟩
  · rintro ⟨x, hx, j, hprovides, hij⟩
    exact ⟨j, hij, s, hs, x, hx, hprovides⟩

/-- The next statement is reached, and with it its target, if it is the statement itself or reads a
name that is reached; other names are reached as before. -/
theorem reaches_succ (hs : body[k]? = some s) :
    Reaches body i x (k + 1) ↔
      if s.target = x then i = k ∨ ∃ y ∈ s.value.reads, Reaches body i y k
      else Reaches body i x k := by
  simp only [Reaches, provides_succ hs]
  split
  · simp only [exists_eq_left]
    exact reaches_iff_of_reads hs
  · rfl

/-- There is nothing more to provide behind the last statement. -/
theorem reaches_succ_of_none (hnone : body[k]? = none) :
    Reaches body i x (k + 1) ↔ Reaches body i x k := by
  have hne : ∀ s, body[k]? = some s → s.target ≠ x := by
    intro s hs
    rw [hnone] at hs
    cases hs
  simp only [Reaches, provides_succ_of_ne hne]

/-- A statement reaches nothing before it. -/
theorem Reaches.lt (h : Reaches body i x k) : i < k := by
  rcases h with ⟨j, hprovides, hchain⟩
  -- every link of the chain goes forward
  have hle : i ≤ j := by
    clear hprovides
    induction hchain with
    | refl =>
        exact Nat.le_refl i
    | tail _ hfeeds ih =>
        rcases hfeeds with ⟨_, _, _, _, h⟩
        exact Nat.le_of_lt (Nat.lt_of_le_of_lt ih h.before)
  exact Nat.lt_of_le_of_lt hle hprovides.before

instance decidableReaches (body : List (Assignment Expr)) (i : Nat) :
    (x : String) → (k : Nat) → Decidable (Reaches body i x k)
  | _, 0 => isFalse fun h => absurd h.lt (Nat.not_lt_zero i)
  | _, k + 1 =>
      have := fun y => decidableReaches body i y k
      match hs : body[k]? with
      | some _ => decidable_of_iff _ (reaches_succ hs).symm
      | none => decidable_of_iff _ (reaches_succ_of_none hs).symm

/-! ## Two runs over trees -/

/-- What is bound in the first environment is bound in the second, to another tree exactly if `P`
holds of the name. -/
def DifferOn (P : String → Prop) (env env' : Environment Expr) : Prop :=
  ∀ x v, env.lookup x = .ok v → ∃ v', env'.lookup x = .ok v' ∧ (v = v' ↔ ¬ P x)

section Runs

variable {P : String → Prop} {env env' : Environment Expr}

/-- A tree differs if one of its parts does. -/
theorem DifferOn.evalWith (h : DifferOn P env env') {e v : Expr}
    (hv : e.evalWith freeArithmetic env = .ok v) :
    ∃ v', e.evalWith freeArithmetic env' = .ok v' ∧ (v = v' ↔ ∀ x ∈ e.reads, ¬ P x) := by
  induction e generalizing v with
  | var x =>
      rcases h x v hv with ⟨v', hv', hiff⟩
      exact ⟨v', hv', by simpa [Expr.reads] using hiff⟩
  | binary op left right ihl ihr =>
      rw [Expr.evalWith_binary] at hv
      rcases except_bind_eq_ok.1 hv with ⟨l, hl, hv⟩
      rcases except_bind_eq_ok.1 hv with ⟨r, hr, hv⟩
      cases hv
      rcases ihl hl with ⟨l', hl', hleft⟩
      rcases ihr hr with ⟨r', hr', hright⟩
      -- a tree determines its operands, so one that differs is enough
      refine ⟨.binary op l' r', ?_, ?_⟩
      · rw [Expr.evalWith_binary, hl', hr']
        rfl
      · rw [Expr.reads, List.forall_mem_append, ← hleft, ← hright, Expr.binary.injEq]
        simp

/-- A later statement is reached through what it reads, and so is its target after it. -/
theorem DifferOn.step (h : DifferOn (Reaches body i · k) env env') (hi : i < k)
    (hs : body[k]? = some s) {v : Expr} (hv : s.value.evalWith freeArithmetic env = .ok v) :
    ∃ v', s.value.evalWith freeArithmetic env' = .ok v' ∧
      DifferOn (Reaches body i · (k + 1)) (env.insert s.target v) (env'.insert s.target v') := by
  rcases h.evalWith hv with ⟨v', hv', hiff⟩
  refine ⟨v', hv', ?_⟩
  intro x w hw
  simp only [reaches_succ hs]
  rw [Environment.lookup_insert] at hw ⊢
  split at hw
  · next htarget =>
      cases hw
      rw [if_pos htarget, if_pos htarget]
      exact ⟨v', rfl, hiff.trans (by simp [Nat.ne_of_lt hi])⟩
  · next htarget =>
      rw [if_neg htarget, if_neg htarget]
      exact h x w hw

/-- Environments that differ where statement `i` reaches do so after all later statements. -/
theorem DifferOn.execute {first rest : List (Assignment Expr)} (hbody : body = first ++ rest)
    (hi : i < first.length) (h : DifferOn (Reaches body i · first.length) env env')
    {out : Environment Expr} (hout : Calc.execute freeArithmetic env rest = .ok out) :
    ∃ out', Calc.execute freeArithmetic env' rest = .ok out' ∧
      DifferOn (Reaches body i · body.length) out out' := by
  induction rest generalizing first env env' with
  | nil =>
      cases hout
      refine ⟨env', rfl, ?_⟩
      rwa [hbody, List.append_nil] at h ⊢
  | cons s rest ih =>
      rw [Calc.execute_cons] at hout
      rcases except_bind_eq_ok.1 hout with ⟨v, hv, hout⟩
      rcases h.step hi (by simp [hbody]) hv with ⟨v', hv', hnext⟩
      have hlength : first.length + 1 = (first ++ [s]).length := by simp
      rw [hlength] at hnext
      rcases ih (by simpa using hbody) (by omega) hnext hout with ⟨out', hout', hdiffer⟩
      refine ⟨out', ?_, hdiffer⟩
      rw [Calc.execute_cons, hv']
      exact hout'

/-- After statement `i`, only its own target can differ. -/
theorem differOn_insert (hs : body[i]? = some s) {v v' : Expr} (hne : v ≠ v') :
    DifferOn (Reaches body i · (i + 1)) (env.insert s.target v) (env.insert s.target v') := by
  intro x w hw
  simp only [reaches_succ hs]
  rw [Environment.lookup_insert] at hw ⊢
  split at hw
  · next htarget =>
      cases hw
      rw [if_pos htarget, if_pos htarget]
      exact ⟨v', rfl, by simp [hne]⟩
  · next htarget =>
      rw [if_neg htarget, if_neg htarget]
      exact ⟨w, hw, iff_of_true rfl fun h => absurd h.lt (Nat.lt_irrefl i)⟩

end Runs

end Flow

/-! ## Functions -/

namespace Calc

namespace Function

/-- The value of statement `i` is part of the result, along a chain of reads. -/
def FlowsToResult (f : Function) (i : Nat) : Prop :=
  ∃ x ∈ f.result.reads, Flow.Reaches f.body i x f.body.length

instance (f : Function) (i : Nat) : Decidable (f.FlowsToResult i) :=
  inferInstanceAs (Decidable (∃ x ∈ f.result.reads, _))

/-- The second sum of the sample is used, although its name is assigned again. -/
example : FlowsToResult Tac.sample.toCalc 1 := by
  decide

/-- The tree over the parameters that an expression at place `i` stands for: what the function
would return if it ended there with this expression. -/
def unfoldedAt (f : Function) (i : Nat) (e : Expr) : Except (EvalError Expr) Expr :=
  unfolded { f with body := f.body.take i, result := e }

section Exchange

variable {f : Function} {first rest : List (Assignment Expr)} {s : Assignment Expr} {i : Nat}
  {env : Environment Expr}

/-- The parameters, bound to themselves. -/
def start (f : Function) : Environment Expr :=
  Environment.bindAll ∅ (f.params.zip (f.params.map Expr.var))

theorem unfolded_eq (f : Function) :
    f.unfolded = (do let out ← execute freeArithmetic f.start f.body
                     f.result.evalWith freeArithmetic out) :=
  evalWith_of_length (by simp)

theorem unfoldedAt_eq (henv : execute freeArithmetic f.start (f.body.take i) = .ok env)
    (e : Expr) : f.unfoldedAt i e = e.evalWith freeArithmetic env := by
  have hrun := unfolded_eq { f with body := f.body.take i, result := e }
  have hstart : execute freeArithmetic (start { f with body := f.body.take i, result := e })
      (f.body.take i) = .ok env := henv
  rw [unfoldedAt, hrun, hstart]
  rfl

/-- The operator of an expression is at the root of its tree. -/
theorem exists_of_unfoldedAt_binary {op : Operator} {left right u : Expr}
    (h : f.unfoldedAt i (.binary op left right) = .ok u) : ∃ l r, u = .binary op l r := by
  rw [unfoldedAt, unfolded_eq] at h
  rcases except_bind_eq_ok.1 h with ⟨env, _, hvalue⟩
  rw [Expr.evalWith_binary] at hvalue
  rcases except_bind_eq_ok.1 hvalue with ⟨l, _, hvalue⟩
  rcases except_bind_eq_ok.1 hvalue with ⟨r, _, hvalue⟩
  cases hvalue
  exact ⟨l, r, rfl⟩

/-- A run whose first statements are known goes on with the statement after them. -/
theorem unfolded_of_body (hbody : f.body = first ++ s :: rest)
    (hfirst : execute freeArithmetic f.start first = .ok env) {v : Expr}
    (hv : s.value.evalWith freeArithmetic env = .ok v) :
    f.unfolded = (do let out ← execute freeArithmetic (env.insert s.target v) rest
                     f.result.evalWith freeArithmetic out) := by
  rw [unfolded_eq, hbody, execute_append, hfirst]
  change (execute freeArithmetic env (s :: rest) >>= _) = _
  rw [execute_cons, hv]
  rfl

theorem split_body (hs : f.body[i]? = some s) : ∃ rest, f.body = f.body.take i ++ s :: rest ∧
    ∀ s' : Assignment Expr, (f.withStatement i s').body = f.body.take i ++ s' :: rest := by
  rcases List.getElem?_eq_some_iff.1 hs with ⟨hi, rfl⟩
  refine ⟨f.body.drop (i + 1), ?_, fun s' => ?_⟩
  · rw [← List.drop_eq_getElem_cons hi, List.take_append_drop]
  · exact List.set_eq_take_append_cons_drop.trans (if_pos hi)

/-- Exchanged statements that have different trees change the result exactly if the value flows
into it. -/
theorem unfolded_eq_iff_of_ne {v v' u : Expr} (hne : v ≠ v')
    (hbody : f.body = first ++ s :: rest)
    (hu : (do let out ← execute freeArithmetic (env.insert s.target v) rest
              f.result.evalWith freeArithmetic out) = .ok u) :
    ∃ u', (do let out ← execute freeArithmetic (env.insert s.target v') rest
              f.result.evalWith freeArithmetic out) = .ok u' ∧
      (u = u' ↔ ¬ f.FlowsToResult first.length) := by
  rcases except_bind_eq_ok.1 hu with ⟨out, hout, hu⟩
  have hs : f.body[first.length]? = some s := by simp [hbody]
  have hlength : first.length + 1 = (first ++ [s]).length := by simp
  have hinsert : Flow.DifferOn (Flow.Reaches f.body first.length · (first ++ [s]).length)
      (env.insert s.target v) (env.insert s.target v') :=
    hlength ▸ Flow.differOn_insert hs hne
  rcases hinsert.execute (by simpa using hbody) (by simp) hout with ⟨out', hout', hdiffer⟩
  rcases hdiffer.evalWith hu with ⟨u', hu', hiff⟩
  refine ⟨u', except_bind_eq_ok.2 ⟨out', hout', hu'⟩, hiff.trans ?_⟩
  simp [FlowsToResult]

/-- A defined function is unfolded with any statement that reads bound names, and the exchange of a
right-hand side does not show exactly if the value does not flow into the result, or is the same. -/
theorem unfolded_withStatement (hdef : f.Defined) (hs : f.body[i]? = some s) {e : Expr}
    (he : ∀ x ∈ e.reads, x ∈ f.params ∨ x ∈ (f.body.take i).map Assignment.target) :
    ∃ u u' old new, f.unfolded = .ok u ∧
      Calc.Function.unfolded (f.withStatement i { s with value := e }) = .ok u' ∧
      f.unfoldedAt i s.value = .ok old ∧ f.unfoldedAt i e = .ok new ∧
      (u = u' ↔ ¬ f.FlowsToResult i ∨ old = new) := by
  rcases split_body hs with ⟨rest, hbody, hbody'⟩
  have hdefined := hdef.1
  rw [hbody, defined_append] at hdefined
  -- the statements before it run in both functions alike, and bind what both sides read
  have hparams : Environment.Binds f.start f.params := binds_params (by simp)
  rcases execute_total Expr.binary hdefined.1 hparams with ⟨env, henv, hbinds⟩
  rcases exists_evalWith_total Expr.binary fun x hx => hbinds x (hdefined.2.1 x hx) with
    ⟨old, hold⟩
  have hread : ∀ x ∈ e.reads, ∃ v, env.lookup x = .ok v := by
    intro x hx
    refine hbinds x ?_
    rcases he x hx with hmem | hmem
    · exact List.mem_append_right _ hmem
    · exact List.mem_append_left _ (List.mem_reverse.2 hmem)
  rcases exists_evalWith_total Expr.binary hread with ⟨new, hnew⟩
  rcases exists_unfolded hdef with ⟨u, hu⟩
  have hrun := hu
  rw [unfolded_of_body hbody henv hold] at hrun
  have hrun' := unfolded_of_body (f := f.withStatement i { s with value := e })
    (hbody' { s with value := e }) henv hnew
  -- with one tree both runs are the same, with two they differ where the statement reaches
  by_cases hne : old = new
  · subst hne
    exact ⟨u, u, old, old, hu, hrun'.trans hrun, (unfoldedAt_eq henv _).trans hold,
      (unfoldedAt_eq henv _).trans hnew, by simp⟩
  · rcases unfolded_eq_iff_of_ne hne hbody hrun with ⟨u', hu', hiff⟩
    have hlength : (f.body.take i).length = i := by
      rcases List.getElem?_eq_some_iff.1 hs with ⟨hi, _⟩
      simp; omega
    rw [hlength] at hiff
    exact ⟨u, u', old, new, hu, hrun'.trans hu', (unfoldedAt_eq henv _).trans hold,
      (unfoldedAt_eq henv _).trans hnew, hiff.trans (by simp [hne])⟩

end Exchange

end Function

end Calc

end StraightLine
