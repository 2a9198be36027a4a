import StraightLine.Limits
import StraightLine.Proofs.Evaluation

/-!
# Definitions — functions in which every name is bound before it is read

Such functions never fail on a name: a run over as many arguments as there are parameters has a
result, or one of its operations has none.

* `Calc.Defined`, `Calc.Function.Defined` — every read follows a parameter or an assignment;
* `Calc.checkDefinitions_eq_ok` — what the compiler checks;
* `Calc.execute_total` — operators that always have a result give one to every defined body;
* `Calc.Function.evalWith_error` — why a run has no result.
-/

namespace StraightLine

namespace Calc

/-- Each statement reads names that are bound before it. -/
def Defined (bound : List String) : List (Assignment Expr) → Prop
  | [] => True
  | s :: rest => (∀ x ∈ s.value.reads, x ∈ bound) ∧ Defined (s.target :: bound) rest

def Function.Defined (f : Function) : Prop :=
  Calc.Defined f.params f.body ∧ ∀ x ∈ f.result.reads, x ∈ f.targets.reverse ++ f.params

instance decidableDefined (bound : List String) :
    (body : List (Assignment Expr)) → Decidable (Defined bound body)
  | [] => inferInstanceAs (Decidable True)
  | s :: rest =>
      have := decidableDefined (s.target :: bound) rest
      inferInstanceAs (Decidable (_ ∧ _))

instance (f : Function) : Decidable f.Defined :=
  inferInstanceAs (Decidable (_ ∧ _))

/-- What is read is a parameter or assigned. -/
theorem Defined.mem_reads {body : List (Assignment Expr)} {bound : List String}
    (h : Defined bound body) {s : Assignment Expr} (hs : s ∈ body) {x : String}
    (hx : x ∈ s.value.reads) : x ∈ bound ∨ x ∈ body.map Assignment.target := by
  induction body generalizing bound with
  | nil =>
      cases hs
  | cons t rest ih =>
      rcases List.mem_cons.1 hs with rfl | hs
      · exact Or.inl (h.1 x hx)
      · rcases ih h.2 hs with hmem | hmem
        · rcases List.mem_cons.1 hmem with rfl | hmem
          · exact Or.inr List.mem_cons_self
          · exact Or.inl hmem
        · exact Or.inr (List.mem_cons_of_mem _ hmem)

theorem defined_append {first rest : List (Assignment Expr)} {bound : List String} :
    Defined bound (first ++ rest) ↔
      Defined bound first ∧ Defined ((first.map Assignment.target).reverse ++ bound) rest := by
  induction first generalizing bound with
  | nil =>
      simp [Defined]
  | cons s first ih =>
      simp [Defined, ih, and_assoc]

/-! ## The compiler's check -/

theorem checkReads_eq_ok {function : String} {defined : Std.HashSet String} {names : List String} :
    checkReads function defined names = .ok () ↔ ∀ x ∈ names, x ∈ defined := by
  induction names with
  | nil =>
      simp [checkReads]
  | cons x rest ih =>
      by_cases hx : x ∈ defined
      · simp [checkReads, hx, ih]
      · simp [checkReads, hx]

/-- The set and the list have the same members, in whatever order, and still do after one more. -/
theorem mem_insert_iff {defined : Std.HashSet String} {bound : List String}
    (hbound : ∀ x, x ∈ defined ↔ x ∈ bound) (target : String) :
    ∀ x, x ∈ defined.insert target ↔ x ∈ target :: bound := by
  intro x
  rw [Std.HashSet.mem_insert, List.mem_cons, hbound, beq_iff_eq, eq_comm]

theorem checkStatements_cons {function : String} {defined : Std.HashSet String}
    {s : Assignment Expr} (hs : isIdentifier s.target = true) (rest : List (Assignment Expr)) :
    checkStatements function defined (s :: rest) =
      (do checkReads function defined s.value.reads
          checkStatements function (defined.insert s.target) rest) := by
  simp only [checkStatements, hs, if_true]
  cases checkReads function defined s.value.reads <;> rfl

theorem checkStatements_eq_ok {function : String} {body : List (Assignment Expr)}
    {defined out : Std.HashSet String} {bound : List String} (hbound : ∀ x, x ∈ defined ↔ x ∈ bound)
    (h : checkStatements function defined body = .ok out) :
    Defined bound body ∧ (∀ s ∈ body, isIdentifier s.target = true) ∧
      ∀ x, x ∈ out ↔ x ∈ (body.map Assignment.target).reverse ++ bound := by
  induction body generalizing defined bound with
  | nil =>
      cases h
      exact ⟨trivial, by simp, hbound⟩
  | cons s rest ih =>
      unfold checkStatements at h
      split at h
      · cases h
      · next hreads =>
          split at h
          · next htarget =>
              rcases ih (mem_insert_iff hbound s.target) h with ⟨hrest, htargets, hout⟩
              refine ⟨⟨?_, hrest⟩, ?_, ?_⟩
              · intro x hx
                exact (hbound x).1 (checkReads_eq_ok.1 hreads x hx)
              · exact List.forall_mem_cons.2 ⟨htarget, htargets⟩
              · simpa using hout
          · cases h

theorem exists_checkStatements {function : String} {body : List (Assignment Expr)}
    {defined : Std.HashSet String} {bound : List String} (hbound : ∀ x, x ∈ defined ↔ x ∈ bound)
    (h : Defined bound body) (htargets : ∀ s ∈ body, isIdentifier s.target = true) :
    ∃ out, checkStatements function defined body = .ok out := by
  induction body generalizing defined bound with
  | nil =>
      exact ⟨defined, rfl⟩
  | cons s rest ih =>
      rcases List.forall_mem_cons.1 htargets with ⟨hs, hrest⟩
      have hreads : checkReads function defined s.value.reads = .ok () :=
        checkReads_eq_ok.2 fun x hx => (hbound x).2 (h.1 x hx)
      rw [checkStatements_cons hs, hreads]
      exact ih (mem_insert_iff hbound s.target) h.2 hrest

theorem checkDefinitions_eq_ok {f : Function} :
    checkDefinitions f = .ok () ↔ f.Defined ∧ ∀ s ∈ f.body, isIdentifier s.target = true := by
  have hparams : ∀ x, x ∈ Std.HashSet.ofList f.params ↔ x ∈ f.params := by
    intro x
    simp [Std.HashSet.mem_ofList]
  constructor
  · intro h
    rcases except_bind_eq_ok.1 h with ⟨defined, hbody, hresult⟩
    rcases checkStatements_eq_ok hparams hbody with ⟨hdefined, htargets, hout⟩
    refine ⟨⟨hdefined, ?_⟩, htargets⟩
    intro x hx
    exact (hout x).1 (checkReads_eq_ok.1 hresult x hx)
  · rintro ⟨hdefined, htargets⟩
    rcases exists_checkStatements hparams hdefined.1 htargets with ⟨defined, hbody⟩
    rcases checkStatements_eq_ok hparams hbody with ⟨_, _, hout⟩
    refine except_bind_eq_ok.2 ⟨defined, hbody, checkReads_eq_ok.2 ?_⟩
    intro x hx
    exact (hout x).2 (hdefined.2 x hx)

/-! ## Runs of defined functions -/

section Runs

variable {α : Type} {arith : Arithmetic α}

/-- Some operation has no result. -/
def OperationFails (arith : Arithmetic α) (e : EvalError α) : Prop :=
  ∃ op a b, arith op a b = .error e

theorem evalWith_error {env : Environment α} {e : Expr}
    (h : ∀ x ∈ e.reads, ∃ v, env.lookup x = .ok v) {err : EvalError α}
    (herr : e.evalWith arith env = .error err) : OperationFails arith err := by
  induction e with
  | var x =>
      rcases h x (by simp [Expr.reads]) with ⟨v, hv⟩
      rw [Expr.evalWith, hv] at herr
      cases herr
  | binary op left right ihl ihr =>
      rw [Expr.evalWith_binary, except_bind_eq_error] at herr
      rcases herr with hl | ⟨l, _, herr⟩
      · exact ihl (fun x hx => h x (List.mem_append_left _ hx)) hl
      · rcases except_bind_eq_error.1 herr with hr | ⟨r, _, herr⟩
        · exact ihr (fun x hx => h x (List.mem_append_right _ hx)) hr
        · exact ⟨op, l, r, herr⟩

/-- A run of statements binds what they assign, or some operation fails. -/
theorem execute_defined (arith : Arithmetic α) {body : List (Assignment Expr)} {bound : List String}
    (h : Defined bound body) {env : Environment α} (henv : env.Binds bound) :
    (∃ err, execute arith env body = .error err ∧ OperationFails arith err) ∨
      ∃ out : Environment α, execute arith env body = .ok out ∧
        out.Binds ((body.map Assignment.target).reverse ++ bound) := by
  induction body generalizing bound env with
  | nil =>
      exact Or.inr ⟨env, rfl, henv⟩
  | cons s rest ih =>
      -- whatever the statement reads is bound, so it fails on an operation or binds its target
      rw [execute_cons]
      cases hv : s.value.evalWith arith env with
      | error err =>
          exact Or.inl ⟨err, rfl, evalWith_error (fun x hx => henv x (h.1 x hx)) hv⟩
      | ok v =>
          rcases ih h.2 (henv.insert s.target v) with hfails | ⟨out, hout, hbound⟩
          · exact Or.inl hfails
          · exact Or.inr ⟨out, hout, by simpa using hbound⟩

/-- Operators that always have a result have one for an expression over bound names. -/
theorem exists_evalWith_total (ops : Operator → α → α → α) {env : Environment α} {e : Expr}
    (h : ∀ x ∈ e.reads, ∃ v, env.lookup x = .ok v) :
    ∃ v, e.evalWith (totalArithmetic ops) env = .ok v := by
  cases hv : e.evalWith (totalArithmetic ops) env with
  | ok v =>
      exact ⟨v, rfl⟩
  | error err =>
      rcases evalWith_error h hv with ⟨_, _, _, hfails⟩
      cases hfails

/-- Over such operators a defined body runs to its end. -/
theorem execute_total (ops : Operator → α → α → α) {bound : List String}
    {body : List (Assignment Expr)} (h : Defined bound body) {env : Environment α}
    (henv : env.Binds bound) :
    ∃ out : Environment α, execute (totalArithmetic ops) env body = .ok out ∧
      out.Binds ((body.map Assignment.target).reverse ++ bound) := by
  rcases execute_defined (totalArithmetic ops) h henv with ⟨_, _, _, _, _, hfails⟩ | hout
  · cases hfails
  · exact hout

/-- A run of a defined function fails on the number of arguments or on an operation. -/
theorem Function.evalWith_error {f : Function} (h : f.Defined) {args : List α} {err : EvalError α}
    (herr : f.evalWith arith args = .error err) :
    (f.params.length ≠ args.length ∧ err = .arity f.name f.params.length args.length) ∨
      OperationFails arith err := by
  by_cases hlength : f.params.length = args.length
  · rw [evalWith_of_length hlength] at herr
    rcases execute_defined arith h.1 (binds_params hlength) with
      ⟨e, he, hfails⟩ | ⟨out, hout, hbound⟩
    · rw [he] at herr
      cases herr
      exact Or.inr hfails
    · rw [hout] at herr
      exact Or.inr (Calc.evalWith_error (fun x hx => hbound x (h.2 x hx)) herr)
  · rw [evalWith_of_length_ne hlength] at herr
    cases herr
    exact Or.inl ⟨hlength, rfl⟩

theorem Function.exists_unfolded {f : Function} (h : f.Defined) : ∃ u, f.unfolded = .ok u := by
  cases hu : f.unfolded with
  | ok u =>
      exact ⟨u, rfl⟩
  | error err =>
      rcases Function.evalWith_error h hu with ⟨hlength, _⟩ | ⟨op, a, b, hop⟩
      · exact absurd (by simp) hlength
      · cases hop

/-! ## Runs that succeed -/

theorem mem_of_evalWith_ok {env : Environment α} {e : Expr} {v : α}
    (h : e.evalWith arith env = .ok v) : ∀ x ∈ e.reads, ∃ w, env.lookup x = .ok w := by
  induction e generalizing v with
  | var x =>
      intro y hy
      rw [List.mem_singleton.1 hy]
      exact ⟨v, h⟩
  | binary op left right ihl ihr =>
      rw [Expr.evalWith_binary] at h
      rcases except_bind_eq_ok.1 h with ⟨l, hl, h⟩
      rcases except_bind_eq_ok.1 h with ⟨r, hr, _⟩
      intro y hy
      rcases List.mem_append.1 hy with hy | hy
      · exact ihl hl y hy
      · exact ihr hr y hy

theorem defined_of_execute_ok {body : List (Assignment Expr)} {bound : List String}
    {env out : Environment α} (henv : ∀ x v, env.lookup x = .ok v → x ∈ bound)
    (h : execute arith env body = .ok out) :
    Defined bound body ∧
      ∀ x v, out.lookup x = .ok v → x ∈ (body.map Assignment.target).reverse ++ bound := by
  induction body generalizing bound env with
  | nil =>
      cases h
      exact ⟨trivial, henv⟩
  | cons s rest ih =>
      rw [execute_cons] at h
      rcases except_bind_eq_ok.1 h with ⟨v, hv, h⟩
      -- nothing else is bound in the new environment
      have henv' : ∀ x w, Environment.lookup (env.insert s.target v) x = .ok w →
          x ∈ s.target :: bound := by
        intro x w hw
        rw [Environment.lookup_insert] at hw
        split at hw
        · next hname =>
            rw [hname]
            exact List.mem_cons_self
        · exact List.mem_cons_of_mem _ (henv x w hw)
      rcases ih henv' h with ⟨hrest, hout⟩
      refine ⟨⟨?_, hrest⟩, by simpa using hout⟩
      intro x hx
      rcases mem_of_evalWith_ok hv x hx with ⟨w, hw⟩
      exact henv x w hw

/-- A function that has a value somewhere reads bound names only. -/
theorem Function.defined_of_evalWith_ok {f : Function} {args : List α} {v : α}
    (h : f.evalWith arith args = .ok v) : f.Defined := by
  by_cases hlength : f.params.length = args.length
  · rw [evalWith_of_length hlength] at h
    rcases except_bind_eq_ok.1 h with ⟨out, hout, hv⟩
    have henv : ∀ x v, Environment.lookup (Environment.bindAll ∅ (f.params.zip args)) x = .ok v →
        x ∈ f.params := by
      intro x v hx
      rcases Environment.lookup_bindAll_ok ∅ hx with hmem | hempty
      · exact (List.of_mem_zip hmem).1
      · rw [Environment.lookup_empty] at hempty
        cases hempty
    rcases defined_of_execute_ok henv hout with ⟨hbody, hnames⟩
    refine ⟨hbody, ?_⟩
    intro x hx
    rcases mem_of_evalWith_ok hv x hx with ⟨w, hw⟩
    exact hnames x w hw
  · rw [evalWith_of_length_ne hlength] at h
    cases h

end Runs

/-- Checked arithmetic knows no names. -/
theorem wordArithmetic_ne_undefinedVariable {err : EvalError Int64}
    (h : OperationFails wordArithmetic err) (x : String) : err ≠ .undefinedVariable x := by
  rcases h with ⟨op, a, b, h⟩
  unfold wordArithmetic at h
  rintro rfl
  split at h
  · cases h
  · dsimp only at h
    split at h <;> cases h

end Calc

end StraightLine
