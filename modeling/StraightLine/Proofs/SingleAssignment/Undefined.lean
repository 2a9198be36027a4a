import Mathlib.Tactic
import StraightLine.Proofs.SingleAssignment

/-!
# Undefined — the first name that is read before it is bound

The compiler's check keeps a set of names, the conversion a table, and a run an environment. They
are bound to the same names at the same reads, so wherever one of them fails on a name, it is the
first name in reading order that is not bound. Only a run can fail earlier, on an operation.

* `Calc.readings`, `Calc.Function.firstUndefined?` — all reads in order, with what is bound there;
* `Reports` — a chain of steps that fails on the first undefined name or for another reason;
* `Calc.reports_checkDefinitions`, `Calc.Function.reports_toSsa`, `Calc.Function.reports_evalWith` —
  the three passes over a function;
* `Calc.definitions_agree` — which errors they have in common.
-/

namespace StraightLine

open SingleAssignment FreshNames

/-! ## Reads in order -/

/-- A name that is read, with the names that are bound where it is read. -/
structure Reading where
  name : String
  bound : List String

namespace Reading

/-- The reads of one expression. -/
def ofNames (bound names : List String) : List Reading :=
  names.map fun name => { name, bound }

/-- The first name that is not bound where it is read. -/
def firstUndefined? (readings : List Reading) : Option String :=
  (readings.find? fun r => r.name ∉ r.bound).map Reading.name

theorem firstUndefined?_append (first rest : List Reading) :
    firstUndefined? (first ++ rest) = (firstUndefined? first).or (firstUndefined? rest) := by
  rw [firstUndefined?, List.find?_append, Option.map_or]
  rfl

theorem firstUndefined?_ofNames_append (bound names more : List String) :
    firstUndefined? (ofNames bound (names ++ more)) =
      (firstUndefined? (ofNames bound names)).or (firstUndefined? (ofNames bound more)) := by
  rw [ofNames, List.map_append, firstUndefined?_append]
  rfl

theorem firstUndefined?_ofNames_cons (bound names : List String) (x : String) :
    firstUndefined? (ofNames bound (x :: names)) =
      if x ∈ bound then firstUndefined? (ofNames bound names) else some x := by
  by_cases hx : x ∈ bound <;> simp [firstUndefined?, ofNames, hx]

end Reading

namespace Calc

/-- The reads of a body in order; a statement does not see its own target. -/
def readings (bound : List String) : List (Assignment Expr) → List Reading
  | [] => []
  | s :: rest => Reading.ofNames bound s.value.reads ++ readings (s.target :: bound) rest

namespace Function

/-- The reads of a function in order, those of the result last. -/
def readings (f : Function) : List Reading :=
  Calc.readings f.params f.body ++ Reading.ofNames (f.targets.reverse ++ f.params) f.result.reads

def firstUndefined? (f : Function) : Option String :=
  Reading.firstUndefined? f.readings

end Function

end Calc

/-! ## Passes that fail on names -/

/-- A step over some reads: it fails on the first undefined name, with the error `onName`, or for
another reason; a success means that there is no such name. -/
def Reports {ε α : Type} (onName : String → ε) (other : ε → Prop) (first : Option String) :
    Except ε α → Prop
  | .ok _ => first = none
  | .error e => (∃ x, first = some x ∧ e = onName x) ∨ other e

section Reports

variable {ε α β : Type} {onName : String → ε} {other : ε → Prop} {first : Option String}

theorem Reports.bind {later : Option String} {r : Except ε α} {k : α → Except ε β}
    (h : Reports onName other first r)
    (hk : ∀ a, r = .ok a → Reports onName other later (k a)) :
    Reports onName other (first.or later) (r >>= k) := by
  cases r with
  | ok a =>
      have hnone : first = none := h
      rw [hnone, Option.none_or]
      exact hk a rfl
  | error e =>
      rcases h with ⟨x, hx, he⟩ | hother
      · exact Or.inl ⟨x, by rw [hx, Option.some_or], he⟩
      · exact Or.inr hother

/-- A step that reads nothing may follow. -/
theorem Reports.bind_none {r : Except ε α} {k : α → Except ε β}
    (h : Reports onName other first r) (hk : ∀ a, r = .ok a → Reports onName other none (k a)) :
    Reports onName other first (r >>= k) := by
  simpa using h.bind hk

/-- Reading a name fails exactly if it is not bound. -/
theorem reports_read {r : Except ε α} {x : String} {bound : List String}
    (hok : x ∈ bound → ∃ a, r = .ok a) (herror : x ∉ bound → r = .error (onName x)) :
    Reports onName other (Reading.firstUndefined? (Reading.ofNames bound [x])) r := by
  rw [Reading.firstUndefined?_ofNames_cons]
  by_cases hx : x ∈ bound
  · rcases hok hx with ⟨a, rfl⟩
    rw [if_pos hx]
    rfl
  · rw [if_neg hx, herror hx]
    exact Or.inl ⟨x, rfl, rfl⟩

/-- Without other reasons, an error is that on the first undefined name. -/
theorem Reports.eq_error_iff {r : Except ε α} (h : Reports onName (fun _ => False) first r) {e : ε} :
    r = .error e ↔ ∃ x, first = some x ∧ e = onName x := by
  cases r with
  | ok a =>
      have hnone : first = none := h
      simp [hnone]
  | error e' =>
      rcases h with ⟨x, rfl, rfl⟩ | hfalse
      · simp [eq_comm]
      · exact hfalse.elim

theorem Reports.exists_ok_iff {r : Except ε α} (h : Reports onName (fun _ => False) first r) :
    (∃ a, r = .ok a) ↔ first = none := by
  cases r with
  | ok a =>
      exact iff_of_true ⟨a, rfl⟩ h
  | error e =>
      rcases h with ⟨x, rfl, rfl⟩ | hfalse
      · simp
      · exact hfalse.elim

end Reports

/-! ## The check -/

namespace Calc

section Check

variable {function : String} {defined : Std.HashSet String} {bound : List String}

theorem reports_checkReads (h : ∀ x, x ∈ defined ↔ x ∈ bound) (names : List String) :
    Reports (CompileError.undefinedVariable function) (fun _ => False)
      (Reading.firstUndefined? (Reading.ofNames bound names))
      (checkReads function defined names) := by
  induction names with
  | nil =>
      rfl
  | cons x rest ih =>
      rw [Reading.firstUndefined?_ofNames_cons]
      by_cases hx : x ∈ bound
      · simpa [checkReads, (h x).2 hx, hx] using ih
      · have hx' : x ∉ defined := mt (h x).1 hx
        simp [checkReads, hx', hx, Reports]

/-- The check of a body, and of what comes after it. -/
theorem reports_checkStatements {body : List (Assignment Expr)}
    (htargets : ∀ x ∈ body.map Assignment.target, isIdentifier x = true)
    (h : ∀ x, x ∈ defined ↔ x ∈ bound) {β : Type} {later : Option String}
    {k : Std.HashSet String → Except CompileError β}
    (hk : ∀ out : Std.HashSet String,
      (∀ x, x ∈ out ↔ x ∈ (body.map Assignment.target).reverse ++ bound) →
      Reports (CompileError.undefinedVariable function) (fun _ => False) later (k out)) :
    Reports (CompileError.undefinedVariable function) (fun _ => False)
      ((Reading.firstUndefined? (readings bound body)).or later)
      (checkStatements function defined body >>= k) := by
  induction body generalizing defined bound with
  | nil =>
      exact hk defined h
  | cons s rest ih =>
      rcases List.forall_mem_cons.1 htargets with ⟨hs, hrest⟩
      rw [checkStatements_cons hs, bind_assoc, readings, Reading.firstUndefined?_append,
        Option.or_assoc]
      refine (reports_checkReads h _).bind fun _ _ => ih hrest (mem_insert_iff h s.target) ?_
      intro out hout
      exact hk out (by simpa using hout)

theorem reports_checkDefinitions {f : Function} (h : ∀ x ∈ f.targets, isIdentifier x = true) :
    Reports (CompileError.undefinedVariable f.name) (fun _ => False) f.firstUndefined?
      (checkDefinitions f) := by
  rw [Function.firstUndefined?, Function.readings, Reading.firstUndefined?_append]
  refine reports_checkStatements h ?_ fun out hout => reports_checkReads hout _
  simp [Std.HashSet.mem_ofList]

end Check

end Calc

/-! ## The conversion -/

namespace SingleAssignment

variable {function : String} {table : Renaming} {bound : List String}

theorem reports_rename (h : ∀ x : String, (∃ y, table[x]? = some y) ↔ x ∈ bound) (e : Expr) :
    Reports (CompileError.undefinedVariable function) (fun _ => False)
      (Reading.firstUndefined? (Reading.ofNames bound e.reads))
      (e.rename (table.lookup function)) := by
  induction e with
  | var x =>
      refine (reports_read ?_ ?_).bind_none fun _ _ => rfl
      · intro hx
        rcases (h x).2 hx with ⟨y, hy⟩
        exact ⟨y, Renaming.lookup_eq_ok.2 hy⟩
      · intro hx
        have hnone : table[x]? = none := by
          rw [Option.eq_none_iff_forall_ne_some]
          exact fun y hy => hx ((h x).1 ⟨y, hy⟩)
        rw [Renaming.lookup, hnone]
  | binary op left right ihl ihr =>
      rw [Expr.reads, Reading.firstUndefined?_ofNames_append]
      exact ihl.bind fun l _ => ihr.bind_none fun r _ => rfl

/-- The conversion of a body, and what comes after it with the table as it is then. -/
theorem reports_body {fresh : FreshNames} {stmts : List (Assignment Expr)}
    (h : ∀ x : String, (∃ y, table[x]? = some y) ↔ x ∈ bound) {β : Type} {later : Option String}
    {k : Converted Expr → Except CompileError β}
    (hk : ∀ c : Converted Expr, (∀ x : String, (∃ y, c.table[x]? = some y) ↔
        x ∈ (stmts.map Assignment.target).reverse ++ bound) →
      Reports (CompileError.undefinedVariable function) (fun _ => False) later (k c)) :
    Reports (CompileError.undefinedVariable function) (fun _ => False)
      ((Reading.firstUndefined? (Calc.readings bound stmts)).or later)
      (body Expr.rename function table fresh stmts >>= k) := by
  induction stmts generalizing table fresh bound k with
  | nil =>
      exact hk _ h
  | cons s rest ih =>
      rw [body_cons_eq, bind_assoc, Calc.readings, Reading.firstUndefined?_append, Option.or_assoc]
      refine (reports_rename h _).bind fun value _ => ?_
      rw [bind_assoc]
      refine ih ?_ ?_
      · intro x
        rw [Std.HashMap.getElem?_insert, List.mem_cons]
        by_cases hx : s.target = x
        · simp [hx]
        · simp [hx, h, Ne.symm hx]
      · intro c hc
        exact hk _ (by simpa using hc)

end SingleAssignment

theorem Calc.Function.reports_toSsa {f : Calc.Function}
    (h : (FreshNames.ofStem (calcStem f.name)).checkUnowned (f.params ++ f.targets) = .ok ()) :
    Reports (CompileError.undefinedVariable f.name) (fun _ => False) f.firstUndefined? f.toSsa := by
  rw [toSsa, h, firstUndefined?, readings, Reading.firstUndefined?_append]
  refine reports_body ?_ fun c hc => (reports_rename hc _).bind_none fun _ _ => rfl
  intro x
  rw [Renaming.getElem?_ofParams]
  by_cases hx : x ∈ f.params <;> simp [hx]

/-! ## Runs -/

namespace Calc

section Runs

variable {α : Type} {arith : Arithmetic α} {env : Environment α} {bound : List String}

theorem reports_evalWith (h : ∀ x, (∃ v, env.lookup x = .ok v) ↔ x ∈ bound) (e : Expr) :
    Reports EvalError.undefinedVariable (OperationFails arith)
      (Reading.firstUndefined? (Reading.ofNames bound e.reads)) (e.evalWith arith env) := by
  induction e with
  | var x =>
      refine reports_read (h x).2 ?_
      intro hx
      cases hlookup : env[x]? with
      | none =>
          rw [Expr.evalWith, Environment.lookup, hlookup]
      | some v =>
          exact absurd ((h x).1 ⟨v, by rw [Environment.lookup, hlookup]⟩) hx
  | binary op left right ihl ihr =>
      rw [Expr.reads, Reading.firstUndefined?_ofNames_append, Expr.evalWith_binary]
      refine ihl.bind fun l _ => ihr.bind_none fun r _ => ?_
      -- both operands have values, so nothing is left to fail but the operation
      cases hop : arith op l r with
      | ok v =>
          rfl
      | error err =>
          exact Or.inr ⟨op, l, r, hop⟩

/-- A run of a body, and what comes after it in the environment as it is then. -/
theorem reports_execute {body : List (Assignment Expr)}
    (h : ∀ x, (∃ v, env.lookup x = .ok v) ↔ x ∈ bound) {later : Option String} {β : Type}
    {k : Environment α → Except (EvalError α) β}
    (hk : ∀ out : Environment α, (∀ x, (∃ v, out.lookup x = .ok v) ↔
        x ∈ (body.map Assignment.target).reverse ++ bound) →
      Reports EvalError.undefinedVariable (OperationFails arith) later (k out)) :
    Reports EvalError.undefinedVariable (OperationFails arith)
      ((Reading.firstUndefined? (readings bound body)).or later)
      (execute arith env body >>= k) := by
  induction body generalizing env bound with
  | nil =>
      exact hk env h
  | cons s rest ih =>
      rw [execute_cons, bind_assoc, readings, Reading.firstUndefined?_append, Option.or_assoc]
      refine (reports_evalWith h _).bind fun v _ => ih ?_ ?_
      · intro x
        rw [Environment.lookup_insert, List.mem_cons]
        by_cases hx : s.target = x
        · simp [hx]
        · simp [hx, h, Ne.symm hx]
      · intro out hout
        exact hk out (by simpa using hout)

theorem Function.reports_evalWith {f : Function} {args : List α}
    (h : f.params.length = args.length) :
    Reports EvalError.undefinedVariable (OperationFails arith) f.firstUndefined?
      (f.evalWith arith args) := by
  rw [evalWith_of_length h, firstUndefined?, readings, Reading.firstUndefined?_append]
  refine reports_execute ?_ fun out hout => Calc.reports_evalWith hout _
  intro x
  constructor
  · rintro ⟨v, hv⟩
    rcases Environment.lookup_bindAll_ok ∅ hv with hmem | hempty
    · exact (List.of_mem_zip hmem).1
    · rw [Environment.lookup_empty] at hempty
      cases hempty
  · exact binds_params h x

end Runs

/-! ## Agreement -/

/-- A run over words that fails on a name fails on the first undefined one, and a run that succeeds
has met all reads. -/
theorem Function.reports_eval (f : Function) (args : List Int64) :
    (∀ x, f.eval args = .error (.undefinedVariable x) → f.firstUndefined? = some x) ∧
      ∀ v, f.eval args = .ok v → f.firstUndefined? = none := by
  unfold Function.eval
  by_cases hlength : f.params.length = args.length
  · have hreports : Reports EvalError.undefinedVariable (OperationFails wordArithmetic)
        f.firstUndefined? (f.evalWith wordArithmetic args) := Function.reports_evalWith hlength
    refine ⟨?_, ?_⟩
    · intro x hx
      rw [hx] at hreports
      rcases hreports with ⟨y, hy, hname⟩ | hfails
      · cases hname
        exact hy
      · exact absurd rfl (wordArithmetic_ne_undefinedVariable hfails x)
    · intro v hv
      rw [hv] at hreports
      exact hreports
  · rw [evalWith_of_length_ne hlength]
    exact ⟨fun _ hx => (nomatch hx), fun _ hv => (nomatch hv)⟩

/-- For a function whose targets are identifiers and whose parameters and targets do not look
generated, the check of definitions and the conversion succeed together and fail with the same
error, which names the first undefined read in order. If they succeed, no run fails on a name, and
a run that fails on a name fails on this one; a run with a value shows that they succeed. -/
theorem definitions_agree (f : Function) (htargets : ∀ x ∈ f.targets, isIdentifier x = true)
    (hunowned : ∀ x ∈ f.params ++ f.targets,
      (FreshNames.ofStem (calcStem f.name)).owns x = false) :
    (checkDefinitions f = .ok () ↔ ∃ g, f.toSsa = .ok g) ∧
    (∀ e, checkDefinitions f = .error e ↔ f.toSsa = .error e) ∧
    (∀ e, checkDefinitions f = .error e ↔
      ∃ x, f.firstUndefined? = some x ∧ e = .undefinedVariable f.name x) ∧
    (checkDefinitions f = .ok () → ∀ args x, f.eval args ≠ .error (.undefinedVariable x)) ∧
    (∀ args x, f.eval args = .error (.undefinedVariable x) →
      checkDefinitions f = .error (.undefinedVariable f.name x) ∧
        f.toSsa = .error (.undefinedVariable f.name x)) ∧
    ∀ args v, f.eval args = .ok v → checkDefinitions f = .ok () := by
  have hcheck := reports_checkDefinitions htargets
  have hssa := Function.reports_toSsa (FreshNames.checkUnowned_eq_ok.2 hunowned)
  have hok : checkDefinitions f = .ok () ↔ f.firstUndefined? = none := by
    rw [← hcheck.exists_ok_iff]
    exact ⟨fun h => ⟨(), h⟩, fun ⟨_, h⟩ => h⟩
  refine ⟨hok.trans hssa.exists_ok_iff.symm, ?_, fun e => hcheck.eq_error_iff, ?_, ?_, ?_⟩
  · intro e
    rw [hcheck.eq_error_iff, hssa.eq_error_iff]
  · intro hdefined args x hx
    have hfirst := (f.reports_eval args).1 x hx
    rw [hok.1 hdefined] at hfirst
    cases hfirst
  · intro args x hx
    have hfirst := (f.reports_eval args).1 x hx
    exact ⟨hcheck.eq_error_iff.2 ⟨x, hfirst, rfl⟩, hssa.eq_error_iff.2 ⟨x, hfirst, rfl⟩⟩
  · intro args v hv
    exact hok.2 ((f.reports_eval args).2 v hv)

/-- `b` is read by the statement that assigns it, and the return reads one more undefined name. A
run that divides by zero before does not get there. -/
theorem definitions_agree_own_target :
    let f : Function :=
      { name := "f", params := ["a"],
        body := [⟨"a", .binary .div (.var "a") (.var "a")⟩,
          ⟨"b", .binary .add (.var "a") (.var "b")⟩],
        result := .var "c" }
    f.eval [0] = .error (.divisionByZero 0) ∧ f.eval [5] = .error (.undefinedVariable "b") ∧
      checkDefinitions f = .error (.undefinedVariable "f" "b") ∧
      f.toSsa = .error (.undefinedVariable "f" "b") := by
  intro f
  have hzero : f.eval [0] = .error (.divisionByZero 0) := by cbv
  have hfive : f.eval [5] = .error (.undefinedVariable "b") := by cbv
  have h := definitions_agree f (by decide) (by decide)
  exact ⟨hzero, hfive, h.2.2.2.2.1 [5] "b" hfive⟩

end Calc

end StraightLine
