import Mathlib.Tactic
import StraightLine.Proofs.SingleAssignment

/-!
# Form — what a converted function looks like and computes

A conversion numbers the statements and leaves their operators in place. Every read is redirected
to a parameter or to a target before it, so a run of the converted function takes the same steps as
a run of the original one, up to the same value or the same failure.

* `Expr.SameShape` — the same operators at the same places;
* `SingleAssignment.Form` — numbered targets, and reads of what is there already;
* `sameShape_body`, `Converts.form` — both for a conversion;
* `SingleAssignment.form_toSsa` — the form of either language;
* `SingleAssignment.eval_toSsa` — the conversions keep every run over words.
-/

namespace StraightLine

open FreshNames

/-- The same operators at the same places, whatever the variables are. -/
inductive Expr.SameShape : Expr → Expr → Prop where
  | var (x y : String) : SameShape (.var x) (.var y)
  | binary (op : Operator) {l l' r r' : Expr} (left : SameShape l l') (right : SameShape r r') :
      SameShape (.binary op l r) (.binary op l' r')

namespace SingleAssignment

/-! ## Shapes -/

theorem sameShape_rename {rename : String → Except CompileError String} {e e' : Expr}
    (h : e.rename rename = .ok e') : e.SameShape e' := by
  induction e generalizing e' with
  | var x =>
      rcases except_bind_eq_ok.1 h with ⟨y, _, h⟩
      cases h
      exact .var x y
  | binary op left right ihl ihr =>
      rcases except_bind_eq_ok.1 h with ⟨l, hl, h⟩
      rcases except_bind_eq_ok.1 h with ⟨r, hr, h⟩
      cases h
      exact .binary op (ihl hl) (ihr hr)

/-- Each statement keeps the shape of its right-hand side. -/
def SameShapes (before after : List (Assignment Expr)) : Prop :=
  List.Forall₂ (fun s t => s.value.SameShape t.value) before after

theorem sameShape_body {function : String} {table : Renaming} {fresh : FreshNames}
    {stmts : List (Assignment Expr)} {c : Converted Expr}
    (h : body Expr.rename function table fresh stmts = .ok c) : SameShapes stmts c.body := by
  induction stmts generalizing table fresh c with
  | nil =>
      cases h
      exact .nil
  | cons s rest ih =>
      rcases body_cons.1 h with ⟨value, later, hvalue, hlater, rfl⟩
      exact .cons (sameShape_rename hvalue) (ih hlater)

/-! ## Targets and reads -/

/-- What stands at a place of an ordered body reads names that are bound before the body, or
targets of earlier places. -/
theorem Ordered.reads_earlier {body : List (Assignment Expr)} {bound : List String}
    (h : Ordered bound body) {k : Nat} {s : Assignment Expr} (hs : body[k]? = some s) :
    ∀ x ∈ s.value.reads, x ∈ bound ∨ ∃ j t, j < k ∧ body[j]? = some t ∧ t.target = x := by
  induction body generalizing bound k with
  | nil =>
      cases hs
  | cons first rest ih =>
      rcases h with ⟨hreads, _, hrest⟩
      intro x hx
      cases k with
      | zero =>
          cases hs
          exact Or.inl (hreads x hx)
      | succ k =>
          -- for the rest the first target is bound as well
          rcases ih hrest hs x hx with hbound | ⟨j, t, hj, ht, htarget⟩
          · rcases List.mem_cons.1 hbound with rfl | hbound
            · exact Or.inr ⟨0, first, Nat.succ_pos k, rfl, rfl⟩
            · exact Or.inl hbound
          · exact Or.inr ⟨j + 1, t, Nat.succ_lt_succ hj, ht, htarget⟩

/-- Every statement assigns the name with its number over `stem`, which is no parameter, and reads
parameters and targets of earlier statements; the result reads parameters and targets. -/
structure Form (stem : String) (g : Calc.Function) : Prop where
  distinct : g.targets.Nodup
  notParam : ∀ x ∈ g.targets, x ∉ g.params
  target : ∀ (k : Nat) (s : Assignment Expr), g.body[k]? = some s → s.target = nameAt stem k
  reads : ∀ (k : Nat) (s : Assignment Expr), g.body[k]? = some s → ∀ x ∈ s.value.reads,
    x ∈ g.params ∨ ∃ j t, j < k ∧ g.body[j]? = some t ∧ t.target = x
  result : ∀ x ∈ g.result.reads, x ∈ g.params ∨ x ∈ g.targets

theorem Converts.form {stem : String} {f g : Calc.Function} (h : Converts stem f g) :
    Form stem g where
  distinct := by
    have hinjective : Function.Injective (nameAt stem) := fun i j hij => (nameAt_inj.1 hij).2
    simpa only [h.targets] using List.Nodup.map hinjective List.nodup_range
  notParam := h.ordered.target_notMem
  target := by
    intro k s hs
    have htarget : g.targets[k]? = some s.target := by
      simp [Program.targets, hs]
    have hk : k < g.body.length := (List.getElem?_eq_some_iff.1 hs).1
    rw [h.targets] at htarget
    simpa [hk, eq_comm] using htarget
  reads := fun _ _ hs => h.ordered.reads_earlier hs
  result := by
    rcases h.result with ⟨r, hr, hmem⟩
    intro x hx
    rw [hr] at hx
    exact List.mem_singleton.1 hx ▸ hmem

/-! ## Both languages -/

/-- The single-assignment form of a function: numbered targets over the pass's stem, each read only
by later statements, the same operators at the same places, and for Calc one statement more, which
assigns the returned variable. -/
theorem form_toSsa :
    (∀ f g : Calc.Function, f.toSsa = .ok g →
      Form (calcStem f.name) g ∧ g.name = f.name ∧ g.params = f.params ∧
        ∃ kept last, g.body = kept ++ [last] ∧ SameShapes f.body kept ∧
          f.result.SameShape last.value ∧ g.result = .var last.target) ∧
    (∀ f g : Tac.Function, f.toSsa = .ok g →
      Form (tacStem f.name) g.toCalc ∧ g.name = f.name ∧ g.params = f.params ∧
        SameShapes f.toCalc.body g.toCalc.body) := by
  constructor
  · intro f g h
    have hform := (Calc.Function.converts_toSsa h).form
    rcases Calc.Function.toSsa_eq_ok.1 h with ⟨_, c, result, hc, hresult, rfl⟩
    exact ⟨hform, rfl, rfl, c.body, _, rfl, sameShape_body hc, sameShape_rename hresult, rfl⟩
  · intro f g h
    have hform := (Tac.Function.converts_toSsa h).form
    rcases Tac.Function.toSsa_eq_ok.1 h with ⟨_, c, result, hc, _, rfl⟩
    -- the conversion of values is the conversion of the expressions that they are
    have hbody : body Expr.rename f.name (Renaming.ofParams f.params)
        (FreshNames.ofStem (tacStem f.name)) f.toCalc.body = .ok c.toCalc := by
      simp only [Tac.Function.toCalc, Program.map, body_toCalc, hc]
      rfl
    exact ⟨hform, rfl, rfl, sameShape_body hbody⟩

/-- Both samples assign a name twice; only the one in Calc gets one statement more. -/
theorem form_toSsa_samples :
    ∃ g t, Calc.sample.toSsa = .ok g ∧ Tac.sample.toSsa = .ok t ∧
      Form "_calc_f" g ∧ g.body.length = Calc.sample.body.length + 1 ∧
      Form "_tac_f" t.toCalc ∧ SameShapes Tac.sample.toCalc.body t.toCalc.body := by
  have hcalc : ∃ g, Calc.sample.toSsa = .ok g :=
    Calc.Function.exists_toSsa (by decide) (by decide)
  have htac : ∃ t, Tac.sample.toSsa = .ok t :=
    Tac.Function.exists_toSsa (by decide) (by decide)
  rcases hcalc with ⟨g, hg⟩
  rcases htac with ⟨t, ht⟩
  rcases form_toSsa.1 Calc.sample g hg with ⟨hform, _, _, kept, last, hbody, hshapes, _⟩
  rcases form_toSsa.2 Tac.sample t ht with ⟨hform', _, _, hshapes'⟩
  have hlength : g.body.length = Calc.sample.body.length + 1 := by
    simp [hbody, List.Forall₂.length_eq hshapes]
  exact ⟨g, t, hg, ht, hform, hlength, hform', hshapes'⟩

/-! ## Runs -/

theorem Converts.defined {stem : String} {f g : Calc.Function} (h : Converts stem f g) :
    g.Defined := by
  refine ⟨h.ordered.defined, ?_⟩
  intro x hx
  rcases h.form.result x hx with hx | hx
  · exact List.mem_append_right _ hx
  · exact List.mem_append_left _ (List.mem_reverse.2 hx)

/-- Over words a converted function has the value or the error of the original one, and neither run
meets a name that is not bound. -/
theorem Converts.eval_eq {stem : String} {f g : Calc.Function} (h : Converts stem f g)
    (args : List Int64) :
    g.eval args = f.eval args ∧ ∀ x, f.eval args ≠ .error (.undefinedVariable x) := by
  have heval : g.eval args = f.eval args := h.evalWith wordArithmetic args
  refine ⟨heval, ?_⟩
  intro x hx
  have hg : g.evalWith wordArithmetic args = .error (.undefinedVariable x) := heval.trans hx
  rcases Calc.Function.evalWith_error h.defined hg with ⟨_, harity⟩ | hfails
  · cases harity
  · exact Calc.wordArithmetic_ne_undefinedVariable hfails x rfl

/-- A conversion that succeeds keeps every run: the converted function has the same value or the
same error on all arguments, and no run fails on a name. -/
theorem eval_toSsa :
    (∀ f g : Calc.Function, f.toSsa = .ok g → ∀ args : List Int64,
      g.eval args = f.eval args ∧ ∀ x, f.eval args ≠ .error (.undefinedVariable x)) ∧
    (∀ f g : Tac.Function, f.toSsa = .ok g → ∀ args : List Int64,
      g.eval args = f.eval args ∧ ∀ x, f.eval args ≠ .error (.undefinedVariable x)) :=
  ⟨fun _ _ h => (Calc.Function.converts_toSsa h).eval_eq,
    fun _ _ h => (Tac.Function.converts_toSsa h).eval_eq⟩

/-- A parameter that comes twice is assigned again, and a quotient that nothing uses divides by
zero. -/
theorem eval_toSsa_unused_quotient :
    let f : Calc.Function :=
      { name := "f", params := ["a", "a"],
        body := [⟨"b", .var "a"⟩, ⟨"a", .binary .sub (.var "a") (.var "a")⟩,
          ⟨"c", .binary .div (.var "b") (.var "a")⟩],
        result := .binary .add (.var "b") (.var "a") }
    let t : Tac.Function :=
      { name := "f", params := ["a", "a"],
        body := [⟨"b", .copy "a"⟩, ⟨"a", .binary .sub "a" "a"⟩, ⟨"c", .binary .div "b" "a"⟩],
        result := "b" }
    ∃ g u, f.toSsa = .ok g ∧ t.toSsa = .ok u ∧ g.eval [7, 9] = .error (.divisionByZero 9) ∧
      u.eval [7, 9] = .error (.divisionByZero 9) := by
  intro f t
  have hcalc : ∃ g, f.toSsa = .ok g := Calc.Function.exists_toSsa (by decide) (by decide)
  have htac : ∃ u, t.toSsa = .ok u := Tac.Function.exists_toSsa (by decide) (by decide)
  rcases hcalc with ⟨g, hg⟩
  rcases htac with ⟨u, hu⟩
  have hf : f.eval [7, 9] = .error (.divisionByZero 9) := by cbv
  have ht : t.eval [7, 9] = .error (.divisionByZero 9) := by cbv
  exact ⟨g, u, hg, hu, (eval_toSsa.1 f g hg [7, 9]).1.trans hf,
    (eval_toSsa.2 t u hu [7, 9]).1.trans ht⟩

end SingleAssignment

end StraightLine
