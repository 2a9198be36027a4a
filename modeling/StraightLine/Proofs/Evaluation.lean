import Mathlib.Data.List.Forall2
import StraightLine.Evaluation
import StraightLine.Proofs.Chain

/-!
# Evaluation — runs over different arithmetics

A run is the same sequence of steps over every arithmetic. Related arguments therefore have related
results wherever the operators keep the relation; with the arithmetic of trees, every run becomes
the evaluation of one tree.

* `Environment.lookup_bindAll_ok`, `Environment.exists_lookup_bindAll` — what parameters are bound
  to; `Environment.Binds` — names that are bound;
* `Calc.lookup_of_execute` — a run changes what it assigns;
* `Arithmetic.Simulates`, `Calc.Function.evalWith_related` — related runs;
* `Expr.valueIn` — the value of a tree under operators that always have a result;
* `freeArithmetic`, `Calc.Function.unfolded` — a run over trees;
* `Calc.Function.evalWith_total` — a run with such operators evaluates the unfolded tree.
-/

namespace StraightLine

/-! ## Environments -/

namespace Environment

variable {α β : Type}

theorem lookup_insert_self (env : Environment α) (name : String) (value : α) :
    lookup (env.insert name value) name = .ok value := by
  rw [lookup_insert, if_pos rfl]

theorem lookup_insert_of_ne {env : Environment α} {name other : String} {value : α}
    (h : name ≠ other) : lookup (env.insert name value) other = env.lookup other := by
  rw [lookup_insert, if_neg h]

/-- What is found is one of the bindings, or was there before. -/
theorem lookup_bindAll_ok {bindings : List (String × α)} (env : Environment α) {x : String} {v : α}
    (h : lookup (env.bindAll bindings) x = .ok v) : (x, v) ∈ bindings ∨ env.lookup x = .ok v := by
  induction bindings generalizing env with
  | nil =>
      exact Or.inr h
  | cons b rest ih =>
      rcases ih (env.insert b.1 b.2) h with hmem | hlookup
      · exact Or.inl (List.mem_cons_of_mem b hmem)
      · rw [lookup_insert] at hlookup
        split at hlookup
        · next hname =>
            cases hlookup
            subst hname
            exact Or.inl List.mem_cons_self
        · exact Or.inr hlookup

theorem exists_lookup_bindAll {bindings : List (String × α)} (env : Environment α) {x : String}
    (h : x ∈ bindings.map Prod.fst ∨ ∃ v, env.lookup x = .ok v) :
    ∃ v, lookup (env.bindAll bindings) x = .ok v := by
  induction bindings generalizing env with
  | nil =>
      rcases h with h | h
      · cases h
      · exact h
  | cons b rest ih =>
      apply ih
      rw [lookup_insert]
      rcases h with h | h
      · rcases List.mem_cons.1 h with rfl | h
        · exact Or.inr ⟨b.2, if_pos rfl⟩
        · exact Or.inl h
      · by_cases hname : b.1 = x
        · exact Or.inr ⟨b.2, if_pos hname⟩
        · rw [if_neg hname]
          exact Or.inr h

/-- Every name of the list is bound. -/
def Binds (env : Environment α) (names : List String) : Prop :=
  ∀ x ∈ names, ∃ v, env.lookup x = .ok v

theorem Binds.insert {env : Environment α} {names : List String} (h : env.Binds names)
    (name : String) (value : α) : Binds (env.insert name value) (name :: names) := by
  intro x hx
  rw [lookup_insert]
  by_cases hname : name = x
  · exact ⟨value, if_pos hname⟩
  · rw [if_neg hname]
    exact h x ((List.mem_cons.1 hx).resolve_left (Ne.symm hname))

theorem lookup_empty (x : String) :
    lookup (∅ : Environment α) x = .error (.undefinedVariable x) := by
  simp [lookup]

/-- A parameter that comes twice is bound to one value twice. -/
theorem lookup_bindAll_map {names : List String} {value : String → α} :
    ∀ x ∈ names, lookup (bindAll ∅ (names.zip (names.map value))) x = .ok (value x) := by
  intro x hx
  have hzip : names.zip (names.map value) = names.map fun x => (x, value x) := by
    simpa using List.zip_map' (f := id) (g := value) (l := names)
  rw [hzip]
  have hbound : x ∈ (names.map fun x => (x, value x)).map Prod.fst := by simpa using hx
  rcases exists_lookup_bindAll ∅ (Or.inl hbound) with ⟨v, hv⟩
  rcases lookup_bindAll_ok ∅ hv with hmem | hempty
  · rcases List.mem_map.1 hmem with ⟨y, _, heq⟩
    cases heq
    exact hv
  · rw [lookup_empty] at hempty
    cases hempty

/-- Every bound name is bound in the other environment too, to a related value. -/
def Related (R : α → β → Prop) (env : Environment α) (env' : Environment β) : Prop :=
  ∀ x v, env.lookup x = .ok v → ∃ v', env'.lookup x = .ok v' ∧ R v v'

theorem Related.insert {R : α → β → Prop} {env : Environment α} {env' : Environment β}
    (h : Related R env env') {name : String} {v : α} {v' : β} (hv : R v v') :
    Related R (env.insert name v) (env'.insert name v') := by
  intro x w hw
  rw [lookup_insert] at hw ⊢
  split at hw
  · next hname =>
      cases hw
      exact ⟨v', if_pos hname, hv⟩
  · next hname =>
      rw [if_neg hname]
      exact h x w hw

theorem Related.bindAll {R : α → β → Prop} {names : List String} {args : List α}
    {args' : List β} (hargs : List.Forall₂ R args args') :
    ∀ {env : Environment α} {env' : Environment β}, Related R env env' →
      Related R (env.bindAll (names.zip args)) (env'.bindAll (names.zip args')) := by
  induction hargs generalizing names with
  | nil =>
      intro env env' h
      simpa [Environment.bindAll] using h
  | cons hv _ ih =>
      intro env env' h
      cases names with
      | nil =>
          simpa [Environment.bindAll] using h
      | cons name names =>
          exact ih (h.insert hv)

end Environment

/-! ## Steps as chains -/

section Steps

variable {α : Type} {arith : Arithmetic α}

theorem Expr.evalWith_binary (env : Environment α) (op : Operator) (left right : Expr) :
    (Expr.binary op left right).evalWith arith env =
      (do let l ← left.evalWith arith env
          let r ← right.evalWith arith env
          arith op l r) := by
  simp only [Expr.evalWith]
  cases left.evalWith arith env with
  | error e =>
      rfl
  | ok l =>
      cases right.evalWith arith env <;> rfl

theorem Expr.evalWith_congr {env env' : Environment α} {e : Expr}
    (h : ∀ x ∈ e.reads, env.lookup x = env'.lookup x) :
    e.evalWith arith env = e.evalWith arith env' := by
  induction e with
  | var x =>
      exact h x (by simp [Expr.reads])
  | binary op left right ihl ihr =>
      have hleft := ihl fun x hx => h x (List.mem_append_left _ hx)
      have hright := ihr fun x hx => h x (List.mem_append_right _ hx)
      rw [evalWith_binary, evalWith_binary, hleft, hright]

namespace Calc

theorem execute_cons (env : Environment α) (s : Assignment Expr) (rest : List (Assignment Expr)) :
    execute arith env (s :: rest) =
      (do let v ← s.value.evalWith arith env
          execute arith (env.insert s.target v) rest) := by
  simp only [execute]
  cases s.value.evalWith arith env <;> rfl

theorem execute_append (env : Environment α) (first rest : List (Assignment Expr)) :
    execute arith env (first ++ rest) =
      (do let env ← execute arith env first
          execute arith env rest) := by
  induction first generalizing env with
  | nil =>
      rfl
  | cons s first ih =>
      rw [List.cons_append, execute_cons, execute_cons, bind_assoc]
      exact bind_congr fun v => ih _

/-- Binding a value once more and returning the new name returns the value. -/
theorem execute_last (env : Environment α) (target : String) (e : Expr) :
    (do let out ← execute arith env [⟨target, e⟩]
        (Expr.var target).evalWith arith out) = e.evalWith arith env := by
  rw [execute_cons, bind_assoc]
  conv_rhs => rw [← bind_pure (e.evalWith arith env)]
  exact bind_congr fun v => Environment.lookup_insert_self env target v

/-- A run changes what its statements assign, and nothing else. -/
theorem lookup_of_execute {body : List (Assignment Expr)} {env out : Environment α}
    (h : execute arith env body = .ok out) {x : String} (hx : x ∉ body.map Assignment.target) :
    out.lookup x = env.lookup x := by
  induction body generalizing env with
  | nil =>
      cases h
      rfl
  | cons s rest ih =>
      rw [List.map_cons, List.mem_cons, not_or] at hx
      rw [execute_cons, except_bind_eq_ok] at h
      rcases h with ⟨v, _, h⟩
      rw [ih h hx.2, Environment.lookup_insert_of_ne (Ne.symm hx.1)]

namespace Function

variable {f : Function} {args : List α}

theorem evalWith_of_length (h : f.params.length = args.length) :
    f.evalWith arith args =
      (do let env ← execute arith (Environment.bindAll ∅ (f.params.zip args)) f.body
          f.result.evalWith arith env) := by
  rw [Function.evalWith, Function.enter, if_pos h]
  rfl

theorem evalWith_of_length_ne (h : f.params.length ≠ args.length) :
    f.evalWith arith args = .error (.arity f.name f.params.length args.length) := by
  rw [Function.evalWith, Function.enter, if_neg h]
  rfl

/-- As many arguments as parameters bind every parameter. -/
theorem binds_params (h : f.params.length = args.length) :
    Environment.Binds (Environment.bindAll ∅ (f.params.zip args)) f.params := by
  intro x hx
  refine Environment.exists_lookup_bindAll ∅ (Or.inl ?_)
  rw [List.map_fst_zip (Nat.le_of_eq h)]
  exact hx

end Function

end Calc

end Steps

/-! ## Related arithmetics -/

section Related

variable {α β : Type} {R : α → β → Prop} {arith : Arithmetic α} {arith' : Arithmetic β}

/-- Wherever the first arithmetic has a result, the second has a related one. -/
def Arithmetic.Simulates (R : α → β → Prop) (arith : Arithmetic α) (arith' : Arithmetic β) : Prop :=
  ∀ {op a b a' b' c}, R a a' → R b b' → arith op a b = .ok c →
    ∃ c', arith' op a' b' = .ok c' ∧ R c c'

theorem Expr.evalWith_related (harith : Arithmetic.Simulates R arith arith') {env : Environment α}
    {env' : Environment β} (henv : Environment.Related R env env') {e : Expr} {v : α}
    (h : e.evalWith arith env = .ok v) : ∃ v', e.evalWith arith' env' = .ok v' ∧ R v v' := by
  induction e generalizing v with
  | var x =>
      exact henv x v h
  | binary op left right ihl ihr =>
      rw [evalWith_binary, except_bind_eq_ok] at h
      rcases h with ⟨l, hl, h⟩
      rw [except_bind_eq_ok] at h
      rcases h with ⟨r, hr, h⟩
      rcases ihl hl with ⟨l', hl', hll⟩
      rcases ihr hr with ⟨r', hr', hrr⟩
      rcases harith hll hrr h with ⟨v', hv', hvv⟩
      refine ⟨v', ?_, hvv⟩
      rw [evalWith_binary, hl', hr']
      exact hv'

theorem Calc.execute_related (harith : Arithmetic.Simulates R arith arith')
    {body : List (Assignment Expr)} {env out : Environment α} {env' : Environment β}
    (henv : Environment.Related R env env') (h : execute arith env body = .ok out) :
    ∃ out', execute arith' env' body = .ok out' ∧ Environment.Related R out out' := by
  induction body generalizing env env' with
  | nil =>
      cases h
      exact ⟨env', rfl, henv⟩
  | cons s rest ih =>
      rw [execute_cons, except_bind_eq_ok] at h
      rcases h with ⟨v, hv, h⟩
      rcases Expr.evalWith_related harith henv hv with ⟨v', hv', hvv⟩
      rcases ih (henv.insert hvv) h with ⟨out', hout', hrel⟩
      refine ⟨out', ?_, hrel⟩
      rw [execute_cons, hv']
      exact hout'

theorem Calc.Function.evalWith_related (harith : Arithmetic.Simulates R arith arith')
    {f : Function} {args : List α} {args' : List β} (hargs : List.Forall₂ R args args') {v : α}
    (h : f.evalWith arith args = .ok v) : ∃ v', f.evalWith arith' args' = .ok v' ∧ R v v' := by
  by_cases hlength : f.params.length = args.length
  · rw [evalWith_of_length hlength] at h
    rcases except_bind_eq_ok.1 h with ⟨out, hout, hv⟩
    have hrel : Environment.Related R (Environment.bindAll ∅ (f.params.zip args))
        (Environment.bindAll ∅ (f.params.zip args')) := by
      refine Environment.Related.bindAll hargs ?_
      intro x v hv
      rw [Environment.lookup_empty] at hv
      cases hv
    rcases execute_related harith hrel hout with ⟨out', hout', hrel⟩
    rcases Expr.evalWith_related harith hrel hv with ⟨v', hv', hvv⟩
    refine ⟨v', ?_, hvv⟩
    rw [evalWith_of_length (hlength.trans hargs.length_eq), hout']
    exact hv'
  · rw [evalWith_of_length_ne hlength] at h
    cases h

end Related

/-! ## Operators that always have a result -/

section Total

variable {α : Type}

/-- The arithmetic of operators that always have a result. -/
def totalArithmetic (ops : Operator → α → α → α) : Arithmetic α :=
  fun op left right => .ok (ops op left right)

/-- The value of a tree over named values. -/
def Expr.valueIn (ops : Operator → α → α → α) (value : String → α) : Expr → α
  | .var x => value x
  | .binary op left right => ops op (left.valueIn ops value) (right.valueIn ops value)

theorem Expr.evalWith_total (ops : Operator → α → α → α) {value : String → α}
    {env : Environment α} {e : Expr} (h : ∀ x ∈ e.reads, env.lookup x = .ok (value x)) :
    e.evalWith (totalArithmetic ops) env = .ok (e.valueIn ops value) := by
  induction e with
  | var x =>
      exact h x (by simp [Expr.reads])
  | binary op left right ihl ihr =>
      have hleft := ihl fun x hx => h x (List.mem_append_left _ hx)
      have hright := ihr fun x hx => h x (List.mem_append_right _ hx)
      rw [evalWith_binary, hleft, hright]
      rfl

/-- Operators build the tree of their application. -/
def freeArithmetic : Arithmetic Expr :=
  totalArithmetic Expr.binary

/-- The result as a tree over the parameters: the function is executed with the parameters
themselves as its arguments. -/
def Calc.Function.unfolded (f : Calc.Function) : Except (EvalError Expr) Expr :=
  f.evalWith freeArithmetic (f.params.map Expr.var)

def Tac.Function.unfolded (f : Tac.Function) : Except (EvalError Expr) Expr :=
  f.evalWith freeArithmetic (f.params.map Expr.var)

/-- A run evaluates the unfolded tree. -/
theorem Calc.Function.evalWith_total {ops : Operator → α → α → α} {value : String → α}
    {f : Calc.Function} {u : Expr} (h : f.unfolded = .ok u) :
    f.evalWith (totalArithmetic ops) (f.params.map value) = .ok (u.valueIn ops value) := by
  -- a tree and its value are related, and every operator keeps the relation
  have harith : Arithmetic.Simulates (fun e v => e.valueIn ops value = v) freeArithmetic
      (totalArithmetic ops) := by
    rintro op a b _ _ c rfl rfl h
    cases h
    exact ⟨_, rfl, rfl⟩
  have hargs : List.Forall₂ (fun (e : Expr) v => e.valueIn ops value = v) (f.params.map Expr.var)
      (f.params.map value) := by
    simp [List.forall₂_map_left_iff, List.forall₂_map_right_iff, List.forall₂_same, Expr.valueIn]
  rcases Function.evalWith_related harith hargs h with ⟨v, hv, rfl⟩
  exact hv

end Total

end StraightLine
