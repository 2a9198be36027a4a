import Mathlib.Tactic
import StraightLine.Proofs.Encoding
import StraightLine.Proofs.SingleAssignment

/-!
# Solutions — the equations of a converted function say what a run of the original computes

A solution of the equations gives to the current name of every variable what the variable is bound
to in the original run, and so to every target what the statement with its number computes. A run
has one value for each statement, so for given arguments there is one solution on the targets.

* `Calc.assignedValues` — what the statements of a run compute, in order;
* `Encoding.Satisfies` — values that make all equations true;
* `Reflects`, `Reflects.solves_iff` — the current names have the values of the original run;
* `Characterizes` — the equations have the run as their only solution;
* `SingleAssignment.characterizes_toSsa` — both conversions.
-/

namespace StraightLine

open Smt SingleAssignment FreshNames

/-! ## What a run computes -/

namespace Calc

variable {α : Type} {arith : Arithmetic α}

/-- The values of the statements, each over what is bound before it. -/
def assignedValues (arith : Arithmetic α) :
    Environment α → List (Assignment Expr) → Except (EvalError α) (List α)
  | _, [] => .ok []
  | env, s :: rest => do
      let v ← s.value.evalWith arith env
      let vs ← assignedValues arith (env.insert s.target v) rest
      return v :: vs

/-- The values that the body assigns in a run on these arguments. -/
def Function.assignedValues (arith : Arithmetic α) (f : Function) (args : List α) :
    Except (EvalError α) (List α) := do
  let env ← f.enter args
  Calc.assignedValues arith env f.body

theorem Function.assignedValues_of_length {f : Function} {args : List α}
    (h : f.params.length = args.length) : f.assignedValues arith args =
      Calc.assignedValues arith (Environment.bindAll ∅ (f.params.zip args)) f.body := by
  rw [Function.assignedValues, Function.enter, if_pos h]
  rfl

/-- A run binds the targets to the computed values in turn. -/
theorem execute_eq_bindAll (env : Environment α) (body : List (Assignment Expr)) :
    execute arith env body =
      (do let vs ← assignedValues arith env body
          return env.bindAll ((body.map Assignment.target).zip vs)) := by
  induction body generalizing env with
  | nil =>
      rfl
  | cons s rest ih =>
      rw [execute_cons, assignedValues, bind_assoc]
      refine bind_congr fun v => ?_
      rw [ih, bind_assoc]
      rfl

theorem exists_assignedValues {env out : Environment α} {body : List (Assignment Expr)}
    (h : execute arith env body = .ok out) : ∃ vs, assignedValues arith env body = .ok vs := by
  rw [execute_eq_bindAll] at h
  rcases except_bind_eq_ok.1 h with ⟨vs, hvs, _⟩
  exact ⟨vs, hvs⟩

/-- Over operators that always have a result, a defined function has a value for each statement. -/
theorem Function.exists_values {f : Function} (h : f.Defined) (ops : Operator → α → α → α)
    {args : List α} (hlength : f.params.length = args.length) :
    ∃ out vs v, execute (totalArithmetic ops) (Environment.bindAll ∅ (f.params.zip args)) f.body =
        .ok out ∧
      f.assignedValues (totalArithmetic ops) args = .ok vs ∧
      f.result.evalWith (totalArithmetic ops) out = .ok v ∧
      f.evalWith (totalArithmetic ops) args = .ok v := by
  rcases execute_total ops h.1 (binds_params hlength) with ⟨out, hout, hbinds⟩
  rcases exists_evalWith_total ops fun x hx => hbinds x (h.2 x hx) with ⟨v, hv⟩
  rcases exists_assignedValues hout with ⟨vs, hvs⟩
  refine ⟨out, vs, v, hout, (assignedValues_of_length hlength).trans hvs, hv, ?_⟩
  rw [evalWith_of_length hlength, hout]
  exact hv

end Calc

/-! ## Values that satisfy equations -/

namespace Encoding

variable {α : Type} {ops : Operator → α → α → α} {value : String → α}

/-- All formulas hold if the names have these values and the operators are `ops`. -/
def Satisfies (ops : Operator → α → α → α) (value : String → α) (formulas : List Formula) : Prop :=
  (interpretationOf ops value).HoldsAll formulas

theorem satisfies_equations {body : List (Assignment Expr)} :
    Satisfies ops value (body.map equationOf) ↔ Solves ops value body := by
  rw [Satisfies, Interpretation.holdsAll_iff, List.forall_mem_map]
  exact forall₂_congr fun s _ => holds_equationOf

end Encoding

namespace SingleAssignment

/-! ## Renaming under a solution -/

section Renaming

variable {α : Type} {ops : Operator → α → α → α} {value : String → α} {table : Renaming}
  {env : Environment α} {function : String}

theorem solves_singleton {s : Assignment Expr} :
    Solves ops value [s] ↔ value s.target = s.value.valueIn ops value := by
  simp [Solves]

/-- What a name is bound to is the value of the name that stands for it. -/
def Reflects (table : Renaming) (env : Environment α) (value : String → α) : Prop :=
  ∀ x y : String, table[x]? = some y → env.lookup x = .ok (value y)

theorem Reflects.insert (h : Reflects table env value) (x y : String) :
    Reflects (table.insert x y) (env.insert x (value y)) value := by
  intro z w hz
  rw [Std.HashMap.getElem?_insert] at hz
  rw [Environment.lookup_insert]
  by_cases hname : x = z
  · rw [if_pos (beq_iff_eq.2 hname), Option.some.injEq] at hz
    rw [if_pos hname, hz]
  · rw [if_neg (by simpa using hname)] at hz
    rw [if_neg hname, h z w hz]

theorem Reflects.evalWith (h : Reflects table env value) {e e' : Expr}
    (he : e.rename (table.lookup function) = .ok e') :
    e.evalWith (totalArithmetic ops) env = .ok (e'.valueIn ops value) := by
  induction e generalizing e' with
  | var x =>
      rcases except_bind_eq_ok.1 he with ⟨y, hy, he⟩
      cases he
      exact h x y (Renaming.lookup_eq_ok.1 hy)
  | binary op left right ihl ihr =>
      rcases except_bind_eq_ok.1 he with ⟨l, hl, he⟩
      rcases except_bind_eq_ok.1 he with ⟨r, hr, he⟩
      cases he
      rw [Expr.evalWith_binary, ihl hl, ihr hr]
      rfl

theorem reflects_ofParams {params : List String} {arg : String → α}
    (h : ∀ p ∈ params, value p = arg p) :
    Reflects (Renaming.ofParams params) (Environment.bindAll ∅ (params.zip (params.map arg)))
      value := by
  intro x y hxy
  rw [Renaming.getElem?_ofParams] at hxy
  split at hxy
  · next hx =>
      cases hxy
      rw [h x hx]
      exact Environment.lookup_bindAll_map x hx
  · cases hxy

/-- The equations of a converted body hold exactly if the targets have the values that the original
statements compute, and then the current names are known after it as well. -/
theorem Reflects.solves_iff {fresh : FreshNames} {stmts : List (Assignment Expr)}
    {c : Converted Expr} (henv : Reflects table env value)
    (h : body Expr.rename function table fresh stmts = .ok c) {vs : List α}
    (hvs : Calc.assignedValues (totalArithmetic ops) env stmts = .ok vs) {out : Environment α}
    (hout : Calc.execute (totalArithmetic ops) env stmts = .ok out) :
    (Solves ops value c.body ↔ (c.body.map Assignment.target).map value = vs) ∧
      (Solves ops value c.body → Reflects c.table out value) := by
  induction stmts generalizing table fresh env c vs with
  | nil =>
      cases h
      cases hvs
      cases hout
      exact ⟨by simp [Solves], fun _ => henv⟩
  | cons s rest ih =>
      rcases body_cons.1 h with ⟨e, later, he, hlater, rfl⟩
      have hv : s.value.evalWith (totalArithmetic ops) env = .ok (e.valueIn ops value) :=
        henv.evalWith he
      rw [Calc.execute_cons, hv] at hout
      rcases except_bind_eq_ok.1 hvs with ⟨_, hv', hvs⟩
      cases hv.symm.trans hv'
      rcases except_bind_eq_ok.1 hvs with ⟨ws, hws, hvs⟩
      cases hvs
      have hsolves : Solves ops value (⟨fresh.nextName.1, e⟩ :: later.body) ↔
          value fresh.nextName.1 = e.valueIn ops value ∧ Solves ops value later.body :=
        List.forall_mem_cons
      -- if the first equation holds, the new name has the value that the run goes on with
      by_cases hfirst : value fresh.nextName.1 = e.valueIn ops value
      · rw [← hfirst] at hws hout
        rcases ih (henv.insert s.target fresh.nextName.1) hlater hws hout with ⟨hiff, hreflects⟩
        rw [hsolves]
        simp only [List.map_cons, List.cons.injEq, hfirst, true_and]
        exact ⟨hiff, hreflects⟩
      · rw [hsolves]
        simp [hfirst]

end Renaming

/-! ## Functions -/

/-- On the arguments `arg`, the equations hold exactly if the targets have the values `vs` in turn;
there is such a solution, it is the only one on the targets, and it gives `v` to the result. -/
structure Characterizes {α : Type} (equations : List Formula) (ops : Operator → α → α → α)
    (arg : String → α) (g : Calc.Function) (vs : List α) (v : α) : Prop where
  satisfies_iff : ∀ value : String → α, (∀ p ∈ g.params, value p = arg p) →
    (Encoding.Satisfies ops value equations ↔ g.targets.map value = vs)
  exists_unique : ∃ value : String → α, ((∀ p ∈ g.params, value p = arg p) ∧
      Encoding.Satisfies ops value equations) ∧
    ∀ value' : String → α, (∀ p ∈ g.params, value' p = arg p) →
      Encoding.Satisfies ops value' equations → ∀ x ∈ g.targets, value' x = value x
  result : ∃ r, g.result = .var r ∧ ∀ value : String → α, (∀ p ∈ g.params, value p = arg p) →
    Encoding.Satisfies ops value equations → value r = v

section Functions

variable {α : Type} {stem : String} {f g : Calc.Function}

/-- An ordered body has one solution for each choice of arguments, so it is enough to know when the
equations hold and what they say of the result. -/
theorem Converts.characterizes (h : Converts stem f g) {ops : Operator → α → α → α}
    {arg : String → α} {vs : List α} {v : α} {r : String} (hr : g.result = .var r)
    (hsolves : ∀ value : String → α, (∀ p ∈ g.params, value p = arg p) →
      (Solves ops value g.body ↔ g.targets.map value = vs) ∧
        (Solves ops value g.body → value r = v)) :
    Characterizes (g.body.map Encoding.equationOf) ops arg g vs v where
  satisfies_iff := by
    intro value hvalue
    rw [Encoding.satisfies_equations]
    exact (hsolves value hvalue).1
  exists_unique := by
    rcases exists_solves ops h.ordered arg with ⟨value, hparams, hvalue⟩
    refine ⟨value, ⟨hparams, Encoding.satisfies_equations.2 hvalue⟩, ?_⟩
    intro value' hparams' hvalue'
    -- both give the computed values to the targets
    have htargets : g.targets.map value' = g.targets.map value :=
      ((hsolves value' hparams').1.1 (Encoding.satisfies_equations.1 hvalue')).trans
        ((hsolves value hparams).1.1 hvalue).symm
    exact List.map_inj_left.1 htargets
  result := by
    refine ⟨r, hr, ?_⟩
    intro value hvalue hholds
    exact (hsolves value hvalue).2 (Encoding.satisfies_equations.1 hholds)

end Functions

/-- For all arguments and all meanings of the operators, the equations of a converted function hold
exactly if every target has the value that the statement with its number computes in a run of the
original function; there is exactly one such solution, and it gives the result of the run to the
returned name. For Calc the last equation is that of the result. -/
theorem characterizes_toSsa {enc : Encoding} {names : List String} {assertions : List Formula}
    (henc : enc.Declares names assertions) :
    (∀ f g : Calc.Function, f.toSsa = .ok g →
      ∀ {α : Type} (ops : Operator → α → α → α) (arg : String → α), ∃ vs v,
        f.assignedValues (totalArithmetic ops) (f.params.map arg) = .ok vs ∧
        f.evalWith (totalArithmetic ops) (f.params.map arg) = .ok v ∧
        Characterizes (enc.calcBody g).1 ops arg g (vs ++ [v]) v) ∧
    (∀ f g : Tac.Function, f.toSsa = .ok g →
      ∀ {α : Type} (ops : Operator → α → α → α) (arg : String → α), ∃ vs v,
        f.toCalc.assignedValues (totalArithmetic ops) (f.params.map arg) = .ok vs ∧
        f.evalWith (totalArithmetic ops) (f.params.map arg) = .ok v ∧
        Characterizes (enc.tacBody g).1 ops arg g.toCalc vs v) := by
  constructor
  · intro f g h α ops arg
    have hconverts := Calc.Function.converts_toSsa h
    rcases Calc.Function.toSsa_eq_ok.1 h with ⟨_, c, result, hc, hresult, rfl⟩
    have hlength : f.params.length = (f.params.map arg).length := by simp
    rcases Calc.Function.exists_values hconverts.source_defined ops hlength with
      ⟨out, vs, v, hout, hvs, hv, hrun⟩
    refine ⟨vs, v, hvs, hrun, ?_⟩
    rw [Encoding.calcBody, (Encoding.assignments_spec _ henc).1]
    refine hconverts.characterizes rfl ?_
    intro value hvalue
    rw [Calc.Function.assignedValues_of_length hlength] at hvs
    rcases (reflects_ofParams hvalue).solves_iff hc hvs hout with ⟨hiff, hreflects⟩
    -- the last equation is over the names that are current after the body
    have hlast : Solves ops value c.body → result.valueIn ops value = v := by
      intro hsolves
      have heval : f.result.evalWith (totalArithmetic ops) out =
          .ok (result.valueIn ops value) := (hreflects hsolves).evalWith hresult
      exact Except.ok.inj (heval.symm.trans hv)
    refine ⟨?_, ?_⟩
    · rw [solves_append, hiff, Program.targets, List.map_append, List.map_append, List.map_singleton,
        List.map_singleton, List.append_singleton_inj, ← hiff]
      refine and_congr_right fun hsolves => ?_
      rw [solves_singleton, hlast hsolves]
    · intro hsolves
      rcases solves_append.1 hsolves with ⟨hbody, hresult'⟩
      exact (solves_singleton.1 hresult').trans (hlast hbody)
  · intro f g h α ops arg
    have hconverts := Tac.Function.converts_toSsa h
    rcases Tac.Function.toSsa_eq_ok.1 h with ⟨_, c, result, hc, hresult, rfl⟩
    have hlength : f.toCalc.params.length = (f.params.map arg).length := by
      simp [Tac.Function.toCalc, Program.map]
    rcases Calc.Function.exists_values hconverts.source_defined ops hlength with
      ⟨out, vs, v, hout, hvs, hv, hrun⟩
    refine ⟨vs, v, hvs, hrun, ?_⟩
    rw [Encoding.tacBody, Encoding.calcBody, (Encoding.assignments_spec _ henc).1]
    refine hconverts.characterizes (r := result) rfl ?_
    intro value hvalue
    rw [Calc.Function.assignedValues_of_length hlength] at hvs
    rcases (reflects_ofParams hvalue).solves_iff (body_toCalc_eq_ok hc) hvs hout with
      ⟨hiff, hreflects⟩
    refine ⟨hiff, fun hsolves => ?_⟩
    have heval : out.lookup f.result = .ok (value result) :=
      hreflects hsolves _ _ (Renaming.lookup_eq_ok.1 hresult)
    exact Except.ok.inj (heval.symm.trans hv)

/-- Both samples over the integers, where `s1` is 2 and the other arguments are 3. The code is
encoded after the source, so its parameters are declared already. -/
theorem characterizes_toSsa_samples :
    let arg : String → Int := fun x => if x = "s1" then 2 else 3
    ∃ g t, Calc.sample.toSsa = .ok g ∧ Tac.sample.toSsa = .ok t ∧
      Characterizes (Encoding.empty.calcBody g).1 Operator.exact arg g [30, 60, 60] 60 ∧
      Characterizes ((Encoding.empty.calcBody g).2.tacBody t).1 Operator.exact arg t.toCalc
        [5, 6, 30, 60, 60] 60 := by
  intro arg
  have hcalc : ∃ g, Calc.sample.toSsa = .ok g :=
    Calc.Function.exists_toSsa (by decide) (by decide)
  have htac : ∃ t, Tac.sample.toSsa = .ok t :=
    Tac.Function.exists_toSsa (by decide) (by decide)
  rcases hcalc with ⟨g, hg⟩
  rcases htac with ⟨t, ht⟩
  have hsource := Encoding.declares_empty
  have htarget := (Encoding.assignments_spec g.body hsource).2
  have hvalues : Calc.sample.assignedValues (totalArithmetic Operator.exact)
      (Calc.sample.params.map arg) = .ok [30, 60] := by cbv
  have hvalues' : Tac.sample.toCalc.assignedValues (totalArithmetic Operator.exact)
      (Tac.sample.params.map arg) = .ok [5, 6, 30, 60, 60] := by cbv
  have hresult : Calc.sample.evalWith (totalArithmetic Operator.exact)
      (Calc.sample.params.map arg) = .ok 60 := by cbv
  have hresult' : Tac.sample.evalWith (totalArithmetic Operator.exact)
      (Tac.sample.params.map arg) = .ok 60 := by cbv
  rcases (characterizes_toSsa hsource).1 Calc.sample g hg Operator.exact arg with
    ⟨vs, v, hvs, hv, hg'⟩
  rcases (characterizes_toSsa htarget).2 Tac.sample t ht Operator.exact arg with
    ⟨ws, w, hws, hw, ht'⟩
  cases hvs.symm.trans hvalues
  cases hws.symm.trans hvalues'
  cases hv.symm.trans hresult
  cases hw.symm.trans hresult'
  exact ⟨g, t, hg, ht, hg', ht'⟩

end SingleAssignment

end StraightLine
