import Mathlib.Tactic
import StraightLine.Compiler
import StraightLine.Proofs.Lowering
import StraightLine.Proofs.Printing

/-!
# Compiler — compiled functions compute what their sources compute

A function that passes the checks reads bound names only, and all of its names are identifiers, so
its written form determines it. What a compiler remembers under the digest of a text is therefore
what it would compile from it, as long as different texts of the session have different digests.

* `Limits.check_eq_ok`, `Limits.checkDepth_eq_ok`, `Limits.defined_of_check` — what the checks say
  about sizes and names;
* `Compiler.Request`, `Compiler.after` — a session with a compiler;
* `Compiler.Remembers` — where the remembered functions come from;
* `Compiler.Outcome` — everything that a compiler can do with a function;
* `Compiler.compile_after` — in a session, too, an answer is the lowered function;
* `Compiler.eval_compile` — both functions have the same value or the same error.
-/

namespace StraightLine

/-! ## Checks -/

theorem Calc.checkParams_eq_ok {function : String} {params : List String}
    {seen : Std.HashSet String} :
    checkParams function seen params = .ok () ↔
      (∀ p ∈ params, isIdentifier p = true) ∧ params.Nodup ∧ ∀ p ∈ params, p ∉ seen := by
  induction params generalizing seen with
  | nil =>
      simp [checkParams]
  | cons p rest ih =>
      by_cases hp : isIdentifier p = true
      · by_cases hseen : p ∈ seen
        · simp [checkParams, hp, hseen]
        · -- a later parameter is new if it is neither among those before nor the same as this one
          have hnew : (∀ q ∈ rest, q ∉ seen.insert p) ↔ p ∉ rest ∧ ∀ q ∈ rest, q ∉ seen := by
            simp only [Std.HashSet.mem_insert, beq_iff_eq, not_or, forall₂_and]
            refine and_congr_left fun _ => ?_
            exact ⟨fun h hmem => h p hmem rfl, fun h q hq hpq => h (hpq ▸ hq)⟩
          simp only [checkParams, hp, Bool.not_true, Bool.false_eq_true, if_false,
            Std.HashSet.contains_iff_mem, hseen, ih, hnew, List.forall_mem_cons,
            List.nodup_cons, not_false_eq_true, true_and]
          tauto
      · simp [checkParams, hp]

theorem Limits.checkDepths_eq_ok {limits : Limits} {function : String} {exprs : List Expr} :
    limits.checkDepths function exprs = .ok () ↔ ∀ e ∈ exprs, e.depth ≤ limits.maxDepth := by
  induction exprs with
  | nil =>
      simp [checkDepths]
  | cons e rest ih =>
      by_cases he : limits.maxDepth < e.depth
      · simp [checkDepths, he, Nat.not_le.2 he]
      · simp [checkDepths, he, Nat.not_lt.1 he, ih]

theorem Limits.checkDepth_eq_ok {limits : Limits} {f : Calc.Function} :
    limits.checkDepth f = .ok () ↔ ∀ e ∈ f.exprs, e.depth ≤ limits.maxDepth :=
  checkDepths_eq_ok

theorem Limits.checkDepth_sample : ({} : Limits).checkDepth Calc.sample = .ok () := by
  cbv

theorem Limits.check_eq_ok {limits : Limits} {f : Calc.Function} :
    limits.check f = .ok () ↔ isIdentifier f.name = true ∧ f.body.length ≤ limits.maxStatements ∧
      limits.checkDepth f = .ok () ∧ Calc.checkParams f.name ∅ f.params = .ok () ∧
      Calc.checkDefinitions f = .ok () := by
  unfold Limits.check
  by_cases hname : isIdentifier f.name = true
  · by_cases hlength : limits.maxStatements < f.body.length
    · simp [hname, hlength, Nat.not_le.2 hlength, throw, throwThe, MonadExceptOf.throw, bind,
        Except.bind]
    · simp only [hname, Bool.not_true, Bool.false_eq_true, if_false, hlength, except_bind_eq_ok,
        true_and, Nat.not_lt.1 hlength]
      constructor
      · rintro ⟨⟨⟩, hdepth, ⟨⟩, hparams, hdefinitions⟩
        exact ⟨hdepth, hparams, hdefinitions⟩
      · rintro ⟨hdepth, hparams, hdefinitions⟩
        exact ⟨⟨⟩, hdepth, ⟨⟩, hparams, hdefinitions⟩
  · simp [hname, throw, throwThe, MonadExceptOf.throw, bind, Except.bind]

/-- An accepted function reads bound names only, and all of its names are identifiers. -/
theorem Limits.defined_of_check {limits : Limits} {f : Calc.Function}
    (h : limits.check f = .ok ()) : f.Defined ∧ f.Named := by
  rcases check_eq_ok.1 h with ⟨hname, _, _, hparams, hdefinitions⟩
  have hparams := (Calc.checkParams_eq_ok.1 hparams).1
  rcases Calc.checkDefinitions_eq_ok.1 hdefinitions with ⟨hdefined, htargets⟩
  have hbound : ∀ x, x ∈ f.params ∨ x ∈ f.targets → isIdentifier x = true := by
    rintro x (hx | hx)
    · exact hparams x hx
    · rcases List.mem_map.1 hx with ⟨s, hs, rfl⟩
      exact htargets s hs
  refine ⟨hdefined, ⟨hname, hparams, ?_, ?_⟩⟩
  · intro s hs
    refine ⟨htargets s hs, ?_⟩
    intro x hx
    exact hbound x (hdefined.1.mem_reads hs hx)
  · intro x hx
    refine hbound x ?_
    rcases List.mem_append.1 (hdefined.2 x hx) with hmem | hmem
    · exact Or.inr (List.mem_reverse.1 hmem)
    · exact Or.inl hmem

/-! ## Sessions -/

namespace Compiler

/-- What a compiler is asked to compile. -/
inductive Request where
  | function (f : Calc.Function)
  | source (text : String)

namespace Request

def serve (c : Compiler) : Request → Except CompileError Tac.Function × Compiler
  | function f => c.compile f
  | source text => c.compileSource text

/-- The function that a request is about, if its text is one. -/
def function? (limits : Limits) : Request → Option Calc.Function
  | function f => some f
  | source text => (Calc.parse limits.maxDepth text).toOption

end Request

/-- A compiler after requests in turn, whether they failed or not. -/
def after (c : Compiler) (session : List Request) : Compiler :=
  session.foldl (fun c r => (r.serve c).2) c

/-- Everything in memory was lowered from an accepted function that was asked for. -/
structure Remembers (limits : Limits) (asked : Calc.Function → Prop) (c : Compiler) : Prop where
  sameLimits : c.limits = limits
  entry : ∀ (key : String) (t : Tac.Function), c.lowered[key]? = some t →
    ∃ g, asked g ∧ g.digest = key ∧ limits.check g = .ok () ∧ g.lower = .ok t

theorem remembers_ofLimits (limits : Limits) (asked : Calc.Function → Prop) :
    Remembers limits asked (ofLimits limits) where
  sameLimits := rfl
  entry := by
    intro key t h
    simp [ofLimits] at h

/-- What a compiler can do with a function, and what it remembers afterwards. -/
inductive Outcome (c : Compiler) (f : Calc.Function) :
    Except CompileError Tac.Function × Compiler → Prop where
  | refused {e : CompileError} : c.limits.check f = .error e → Outcome c f (.error e, c)
  | recalled {t : Tac.Function} :
      c.limits.check f = .ok () → c.lowered[f.digest]? = some t → Outcome c f (.ok t, c)
  | failed {e : CompileError} :
      c.limits.check f = .ok () → c.lowered[f.digest]? = none → f.lower = .error e →
      Outcome c f (.error e, c)
  | lowered {t : Tac.Function} :
      c.limits.check f = .ok () → c.lowered[f.digest]? = none → f.lower = .ok t →
      Outcome c f (.ok t, { c with lowered := c.lowered.insert f.digest t })

theorem outcome_compile (c : Compiler) (f : Calc.Function) : Outcome c f (c.compile f) := by
  unfold Compiler.compile
  cases hcheck : c.limits.check f with
  | error e =>
      exact .refused hcheck
  | ok _ =>
      dsimp only
      cases hkey : c.lowered[f.digest]? with
      | some t =>
          exact .recalled hcheck hkey
      | none =>
          cases hlower : f.lower with
          | error e =>
              exact .failed hcheck hkey hlower
          | ok t =>
              exact .lowered hcheck hkey hlower

theorem limits_compile (c : Compiler) (f : Calc.Function) : (c.compile f).2.limits = c.limits := by
  have houtcome := outcome_compile c f
  generalize c.compile f = out at houtcome
  cases houtcome <;> rfl

section Memory

variable {limits : Limits} {asked : Calc.Function → Prop} {c : Compiler}

theorem Remembers.compile (h : Remembers limits asked c) {f : Calc.Function} (hf : asked f) :
    Remembers limits asked (c.compile f).2 := by
  have houtcome := outcome_compile c f
  generalize c.compile f = out at houtcome
  cases houtcome with
  | refused _ | recalled _ _ | failed _ _ _ =>
      exact h
  | @lowered t hcheck _ hlower =>
      -- the one new entry comes from `f` itself
      refine ⟨h.sameLimits, ?_⟩
      intro key u hu
      dsimp only at hu
      rw [Std.HashMap.getElem?_insert] at hu
      split at hu
      · next hdigest =>
          cases hu
          exact ⟨f, hf, eq_of_beq hdigest, h.sameLimits ▸ hcheck, hlower⟩
      · exact h.entry key u hu

theorem Remembers.serve (h : Remembers limits asked c) {r : Request}
    (hr : ∀ g, r.function? limits = some g → asked g) :
    Remembers limits asked (r.serve c).2 := by
  cases r with
  | function f =>
      exact h.compile (hr f rfl)
  | source text =>
      simp only [Request.serve, compileSource, h.sameLimits]
      cases hparse : Calc.parse limits.maxDepth text with
      | error e =>
          exact h
      | ok f =>
          refine h.compile (hr f ?_)
          rw [Request.function?, hparse]
          rfl

theorem Remembers.after {session : List Request} (h : Remembers limits asked c)
    (hsession : ∀ r ∈ session, ∀ g, r.function? limits = some g → asked g) :
    Remembers limits asked (c.after session) := by
  induction session generalizing c with
  | nil =>
      exact h
  | cons r rest ih =>
      exact ih (h.serve (hsession r List.mem_cons_self))
        fun r' hr' => hsession r' (List.mem_cons_of_mem _ hr')

/-- Every answer was lowered from an accepted function, whichever function that was. -/
theorem Remembers.compiled (h : Remembers limits asked c) {f : Calc.Function} {t : Tac.Function}
    (ht : (c.compile f).1 = .ok t) :
    limits.check f = .ok () ∧ ∃ g, limits.check g = .ok () ∧ g.lower = .ok t := by
  have houtcome := outcome_compile c f
  generalize c.compile f = out at houtcome ht
  rw [← h.sameLimits]
  cases houtcome with
  | refused _ | failed _ _ _ =>
      cases ht
  | recalled hcheck hkey =>
      cases ht
      rcases h.entry _ _ hkey with ⟨g, _, _, hcheckg, hlower⟩
      exact ⟨hcheck, g, h.sameLimits ▸ hcheckg, hlower⟩
  | lowered hcheck _ hlower =>
      cases ht
      exact ⟨hcheck, f, hcheck, hlower⟩

/-- An answer from memory is what would be compiled, unless the digest stands for another text. -/
theorem Remembers.compile_eq (h : Remembers limits asked c) {f : Calc.Function}
    (hdigest : ∀ g, asked g → g.digest = f.digest → g.text = f.text) :
    (c.compile f).1 = (do limits.check f; f.lower) := by
  have houtcome := outcome_compile c f
  generalize c.compile f = out at houtcome
  rw [← h.sameLimits]
  cases houtcome with
  | refused hcheck =>
      rw [hcheck]
      rfl
  | @recalled t hcheck hkey =>
      -- accepted functions that are written alike are the same
      rcases h.entry _ _ hkey with ⟨g, hasked, hg, hcheckg, hlower⟩
      have hfg := Calc.Function.text_inj (Limits.defined_of_check hcheckg).2
        (Limits.defined_of_check hcheck).2 (hdigest g hasked hg)
      rw [hcheck, ← hfg, hlower]
      rfl
  | failed hcheck _ hlower | lowered hcheck _ hlower =>
      rw [hcheck, hlower]
      rfl

end Memory

/-- No function of the session is written differently from `f` and has its digest. -/
def Distinguishes (limits : Limits) (session : List Request) (f : Calc.Function) : Prop :=
  ∀ r ∈ session, ∀ g, r.function? limits = some g → g.digest = f.digest → g.text = f.text

theorem compile_after {limits : Limits} {session : List Request} {f : Calc.Function}
    (hdigest : Distinguishes limits session f) :
    (((ofLimits limits).after session).compile f).1 = (do limits.check f; f.lower) := by
  let asked : Calc.Function → Prop := fun g => ∃ r ∈ session, r.function? limits = some g
  have hremembers : Remembers limits asked ((ofLimits limits).after session) :=
    (remembers_ofLimits limits asked).after fun r hr g hg => ⟨r, hr, hg⟩
  refine hremembers.compile_eq ?_
  rintro g ⟨r, hr, hg⟩
  exact hdigest r hr g hg

theorem compile_after_eq_ok {limits : Limits} {session : List Request} {f : Calc.Function}
    (hdigest : Distinguishes limits session f) {t : Tac.Function} :
    (((ofLimits limits).after session).compile f).1 = .ok t ↔
      limits.check f = .ok () ∧ f.lower = .ok t := by
  rw [compile_after hdigest, except_bind_eq_ok]
  constructor
  · rintro ⟨⟨⟩, hcheck, hlower⟩
    exact ⟨hcheck, hlower⟩
  · rintro ⟨hcheck, hlower⟩
    exact ⟨⟨⟩, hcheck, hlower⟩

theorem distinguishes_same (limits : Limits) (f : Calc.Function) :
    Distinguishes limits [.function f] f := by
  intro r hr g hg _
  rw [List.mem_singleton.1 hr] at hg
  cases hg
  rfl

/-- The sample is compiled, and a second time from memory. -/
theorem compile_sample_twice :
    (((ofLimits {}).after [.function Calc.sample]).compile Calc.sample).1 =
      .ok (Calc.sample.lowered "z") := by
  refine (compile_after_eq_ok (distinguishes_same _ _)).2 ⟨?_, ?_⟩
  · refine Limits.check_eq_ok.2 ⟨by decide, by decide, Limits.checkDepth_sample, ?_, ?_⟩
    · exact Calc.checkParams_eq_ok.2 ⟨by decide, by decide, by simp⟩
    · exact Calc.checkDefinitions_eq_ok.2 ⟨by decide, by decide⟩
  · exact Calc.Function.lower_eq_ok.2
      ⟨"z", rfl, FreshNames.checkUnowned_ofStem.1 (by decide), rfl⟩

/-! ## Behaviour -/

/-- A compiled function has the value of its source on all arguments, or fails with the same error,
and neither fails on a name. This holds for the answers of a new compiler and for those later in
a session. -/
theorem eval_compile (limits : Limits) (session : List Request) (f : Calc.Function)
    (t : Tac.Function) (hdigest : Distinguishes limits session f)
    (ht : (((ofLimits limits).after session).compile f).1 = .ok t) (args : List Int64) :
    f.eval args = t.eval args ∧ ∀ x, t.eval args ≠ .error (.undefinedVariable x) := by
  rcases (compile_after_eq_ok hdigest).1 ht with ⟨hcheck, hlower⟩
  have hdefined := (Limits.defined_of_check hcheck).1
  have heval : t.eval args = f.eval args := Calc.Function.evalWith_lower hdefined hlower args
  refine ⟨heval.symm, ?_⟩
  intro x herror
  -- a defined function fails on its arguments or on an operation, never on a name
  rw [heval] at herror
  rcases Calc.Function.evalWith_error hdefined herror with ⟨_, harity⟩ | hfails
  · cases harity
  · exact Calc.wordArithmetic_ne_undefinedVariable hfails x rfl

/-- The code of the sample overflows in its first addition. -/
theorem eval_compile_sample :
    (Calc.sample.lowered "z").eval [9223372036854775807, 2, 1, 3] =
      .error (.overflow .add 9223372036854775807 1) := by
  rw [← (eval_compile {} [.function Calc.sample] Calc.sample _ (distinguishes_same _ _)
    compile_sample_twice [9223372036854775807, 2, 1, 3]).1]
  cbv

end Compiler

end StraightLine
