import StraightLine.Proofs.Certificate
import StraightLine.Proofs.Compiler
import StraightLine.Proofs.Fingerprint
import StraightLine.Validator

/-!
# Sessions — verdicts from memory

A verdict is remembered under the digest of the text of its question. What a validator with the
congruence oracle remembers is the verdict on the next question with this digest as well, as long as
questions that are written alike are the same. A name with a bar of its own can make different
questions read alike, and then a verdict on one of them is given to the other.

* `Validator.Request`, `Validator.after` — what a validator is asked, and one that has been asked;
* `Validator.Remembers` — where the verdicts in memory come from;
* `Validator.verdict_serve_after` — names without bars: every verdict is the oracle's own;
* `Validator.verdict_of_question_written_alike` — a verdict that belongs to another question.
-/

namespace StraightLine

open Smt SingleAssignment FreshNames

/-- What the congruence oracle says to the question. -/
def Query.verdict (q : Query) : Verdict :=
  .ofResult (Congruence.decide q.script.assertions.toList)

namespace Validator

/-! ## Requests -/

inductive Request where
  | pair (source : Calc.Function) (target : Tac.Function)
  /-- The function is compiled first. -/
  | function (source : Calc.Function)

namespace Request

def serve (v : Validator) : Request → Except ValidationError Report × Validator
  | pair source target => v.validate source target
  | function source =>
      let served := v.compileAndValidate source
      (served.1.map Prod.snd, served.2)

/-- The question that a request leads to. -/
def question (v : Validator) : Request → Except CompileError Query
  | pair source target => v.query source target
  | function source => do v.query source (← (v.compiler.compile source).1)

/-- The validator when the question is there. -/
def prepared (v : Validator) : Request → Validator
  | pair _ _ => v
  | function source => { v with compiler := (v.compiler.compile source).2 }

/-- The verdict of a validator that asks every question anew. -/
def verdict (v : Validator) (r : Request) : Except ValidationError Verdict :=
  match r.question v with
  | .error e => .error (.compile e)
  | .ok q => .ok q.verdict

/-- No name that can get into the question has a bar. A compiled function has only identifiers. -/
def BarFree : Request → Prop
  | pair source target =>
      Smt.BarFree source.name ∧ Smt.BarFree target.name ∧ ∀ p ∈ source.params, Smt.BarFree p
  | function _ => True

end Request

/-- A validator after requests in turn, whether they failed or not. -/
def after (v : Validator) (session : List Request) : Validator :=
  session.foldl (fun v r => (r.serve v).2) v

/-- The questions of a session in order. -/
def questions (v : Validator) : List Request → List Query
  | [] => []
  | r :: rest => (r.question v).toOption.toList ++ questions (r.serve v).2 rest

/-! ## One request -/

/-- A request that leads to no question changes the compiler at most. -/
theorem serve_eq (v : Validator) (r : Request) :
    r.serve v =
      match r.question v with
      | .error e => (.error (.compile e), r.prepared v)
      | .ok q => (r.prepared v).settle q := by
  cases r with
  | pair source target =>
      rfl
  | function source =>
      rcases hcompile : v.compiler.compile source with ⟨compiled, compiler⟩
      have hlimits : compiler.limits = v.compiler.limits := by
        simpa only [hcompile] using v.compiler.limits_compile source
      simp only [Request.serve, compileAndValidate, Request.question, Request.prepared, hcompile]
      cases compiled with
      | error e =>
          rfl
      | ok target =>
          have hquery : query { v with compiler } source target = v.query source target := by
            simp only [query, hlimits]
          simp only [validate, hquery]
          change _ = match v.query source target with
            | .error e => _
            | .ok q => _
          cases v.query source target with
          | error e =>
              rfl
          | ok q =>
              dsimp only
              rcases settle { v with compiler } q with ⟨answer, v'⟩
              cases answer <;> rfl

/-! ## Memory -/

/-- Every verdict in memory is the one on a question that has been asked and has no bars in it. -/
structure Remembers (asked : Query → Prop) (v : Validator) : Prop where
  oracle : v.oracle = .congruence
  entry : ∀ (hash : String) (verdict : Verdict), v.verdicts[hash]? = some verdict →
    ∃ q, asked q ∧ q.Readable ∧ q.fingerprint = hash ∧ verdict = q.verdict
  compiler : ∃ limits, v.compiler.Remembers limits fun _ => True

theorem remembers_ofSettings (settings : Settings) (asked : Query → Prop) :
    Remembers asked (ofSettings settings .congruence) where
  oracle := rfl
  entry := by
    intro hash verdict h
    simp [ofSettings] at h
  compiler := ⟨settings.limits, Compiler.remembers_ofLimits _ _⟩

/-- Questions with one fingerprint have one text. -/
def Separates (asked : Query → Prop) : Prop :=
  ∀ q, asked q → ∀ q', asked q' → q.fingerprint = q'.fingerprint →
    q.script.smtlib = q'.script.smtlib

section Memory

variable {asked : Query → Prop} {v : Validator} {q : Query}

theorem Remembers.prepared (h : Remembers asked v) (r : Request) :
    Remembers asked (r.prepared v) := by
  cases r with
  | pair source target =>
      exact h
  | function source =>
      rcases h.compiler with ⟨limits, hcompiler⟩
      exact ⟨h.oracle, h.entry, limits, hcompiler.compile trivial⟩

theorem settle_of_remembered {verdict : Verdict}
    (h : v.remembered? q.fingerprint = some verdict) :
    v.settle q = (.ok (v.report q q.fingerprint verdict true), v) := by
  simp only [settle, h]

theorem settle_of_new (horacle : v.oracle = .congruence) (h : v.remembered? q.fingerprint = none) :
    v.settle q = (.ok (v.report q q.fingerprint q.verdict false),
      { v with asked := v.asked + 1 }.remember q.fingerprint q.verdict) := by
  have hask : v.ask q = (.ok q.verdict, { v with asked := v.asked + 1 }) := by
    rw [ask, horacle]
    rfl
  simp only [settle, h, hask]
  rfl

/-- A verdict that settles its question is there when the question comes again. -/
theorem remembered_settle (horacle : v.oracle = .congruence) (hcache : v.cacheVerdicts = true)
    (h : v.remembered? q.fingerprint = none) (hconclusive : q.verdict.isConclusive = true) :
    (v.settle q).2.remembered? q.fingerprint = some q.verdict := by
  rw [settle_of_new horacle h]
  simp [remember, remembered?, hcache, hconclusive]

theorem Remembers.settle (h : Remembers asked v) (hasked : asked q) (hq : q.Readable) :
    Remembers asked (v.settle q).2 := by
  cases hmemory : v.remembered? q.fingerprint with
  | some verdict =>
      rw [settle_of_remembered hmemory]
      exact h
  | none =>
    rw [settle_of_new h.oracle hmemory, remember]
    split
    · -- the one new entry is the verdict on `q` itself
      refine ⟨h.oracle, ?_, h.compiler⟩
      intro hash verdict hentry
      dsimp only at hentry
      rw [Std.HashMap.getElem?_insert] at hentry
      split at hentry
      · next hhash =>
          cases hentry
          exact ⟨q, hasked, hq, eq_of_beq hhash, rfl⟩
      · exact h.entry hash verdict hentry
    · exact ⟨h.oracle, h.entry, h.compiler⟩

/-- What is remembered under the fingerprint of a question is the verdict on this question. -/
theorem Remembers.verdict_eq (h : Remembers asked v) (hdigest : Separates asked) (hasked : asked q)
    (hq : q.Readable) {verdict : Verdict} (hmemory : v.remembered? q.fingerprint = some verdict) :
    verdict = q.verdict := by
  unfold remembered? at hmemory
  split at hmemory
  · rcases h.entry _ _ hmemory with ⟨q', hasked', hq', hhash, rfl⟩
    have hscript := hq'.script_eq hq (hdigest q' hasked' q hasked hhash)
    rw [Query.verdict, Query.verdict, hscript]
  · cases hmemory

theorem Remembers.verdict_settle (h : Remembers asked v) (hdigest : Separates asked)
    (hasked : asked q) (hq : q.Readable) :
    (v.settle q).1.map Report.verdict = .ok q.verdict := by
  cases hmemory : v.remembered? q.fingerprint with
  | some verdict =>
      rw [settle_of_remembered hmemory]
      exact congrArg Except.ok (h.verdict_eq hdigest hasked hq hmemory)
  | none =>
      rw [settle_of_new h.oracle hmemory]
      rfl

end Memory

/-! ## Sessions -/

theorem barFree_of_isIdentifier {x : String} (h : isIdentifier x = true) : Smt.BarFree x := by
  intro hmem
  have hcontinues := (Printing.continues_of_isIdentifier h).2 '|' hmem
  exact absurd hcontinues (by decide)

section Sessions

variable {asked : Query → Prop} {v : Validator} {r : Request}

/-- Names without bars make readable questions. -/
theorem Remembers.readable (h : Remembers asked v) (hr : r.BarFree) {q : Query}
    (hq : r.question v = .ok q) : q.Readable := by
  cases r with
  | pair source target =>
      rcases hr with ⟨hsource, htarget, hparams⟩
      rcases except_bind_eq_ok.1 hq with ⟨_, _, hbuild⟩
      exact Query.readable_build hbuild hsource htarget hparams
  | function source =>
      rcases h.compiler with ⟨limits, hcompiler⟩
      rcases except_bind_eq_ok.1 hq with ⟨target, htarget, hquery⟩
      rcases except_bind_eq_ok.1 hquery with ⟨_, _, hbuild⟩
      -- both functions have been accepted, or lowered from an accepted one
      rcases hcompiler.compiled htarget with ⟨hcheck, g, hcheckg, hlower⟩
      rcases Calc.Function.lower_eq_ok.1 hlower with ⟨_, _, _, rfl⟩
      have hsource := (Limits.defined_of_check hcheck).2
      have hcompiled := (Limits.defined_of_check hcheckg).2
      exact Query.readable_build hbuild (barFree_of_isIdentifier hsource.name)
        (barFree_of_isIdentifier hcompiled.name)
        fun p hp => barFree_of_isIdentifier (hsource.params p hp)

theorem Remembers.serve (h : Remembers asked v) (hr : r.BarFree)
    (hasked : ∀ q, r.question v = .ok q → asked q) : Remembers asked (r.serve v).2 := by
  rw [serve_eq]
  cases hq : r.question v with
  | error e =>
      exact h.prepared r
  | ok q =>
      exact (h.prepared r).settle (hasked q hq) (h.readable hr hq)

theorem mem_questions_cons {session : List Request} {q : Query} :
    q ∈ v.questions (r :: session) ↔
      r.question v = .ok q ∨ q ∈ (r.serve v).2.questions session := by
  rw [questions, List.mem_append]
  refine or_congr_left ?_
  cases r.question v with
  | error e =>
      simp [Except.toOption]
  | ok q' =>
      simp [Except.toOption, eq_comm]

theorem Remembers.after {session : List Request} (h : Remembers asked v)
    (hnames : ∀ r ∈ session, r.BarFree) (hasked : ∀ q ∈ v.questions session, asked q) :
    Remembers asked (v.after session) := by
  induction session generalizing v with
  | nil =>
      exact h
  | cons r rest ih =>
      refine ih (h.serve (hnames r List.mem_cons_self) ?_)
        (fun r' hr' => hnames r' (List.mem_cons_of_mem _ hr')) ?_
      · exact fun q hq => hasked q (mem_questions_cons.2 (Or.inl hq))
      · exact fun q hq => hasked q (mem_questions_cons.2 (Or.inr hq))

/-- A verdict from memory is the oracle's own. -/
theorem Remembers.verdict_serve (h : Remembers asked v) (hdigest : Separates asked)
    (hr : r.BarFree) (hasked : ∀ q, r.question v = .ok q → asked q) :
    (r.serve v).1.map Report.verdict = r.verdict v := by
  rw [serve_eq, Request.verdict]
  cases hq : r.question v with
  | error e =>
      rfl
  | ok q =>
      exact (h.prepared r).verdict_settle hdigest (hasked q hq) (h.readable hr hq)

theorem mem_questions_append {session : List Request} {q : Query} :
    q ∈ v.questions (session ++ [r]) ↔
      q ∈ v.questions session ∨ r.question (v.after session) = .ok q := by
  induction session generalizing v with
  | nil =>
      exact mem_questions_cons.trans or_comm
  | cons r' rest ih =>
      rw [List.cons_append, mem_questions_cons, ih, mem_questions_cons, or_assoc]
      rfl

end Sessions

/-! ## Memory is never seen -/

section Compilers

variable {v v' : Validator}

theorem question_congr (h : v.compiler = v'.compiler) (r : Request) :
    r.question v = r.question v' := by
  cases r <;> simp only [Request.question, query, h]

theorem compiler_settle (v : Validator) (q : Query) : (v.settle q).2.compiler = v.compiler := by
  unfold settle
  dsimp only
  split
  · rfl
  · simp only [ask]
    cases v.oracle.ask v.asked q.script with
    | failed e =>
        rfl
    | result a =>
        simp only [remember]
        split <;> rfl
    | silent =>
        simp only [remember]
        split <;> rfl

theorem compiler_serve (h : v.compiler = v'.compiler) (r : Request) :
    (r.serve v).2.compiler = (r.serve v').2.compiler := by
  have hprepared : (r.prepared v).compiler = (r.prepared v').compiler := by
    cases r <;> simp only [Request.prepared, h]
  rw [serve_eq, serve_eq, question_congr h]
  cases r.question v' with
  | error e =>
      exact hprepared
  | ok q =>
      exact (compiler_settle _ q).trans (hprepared.trans (compiler_settle _ q).symm)

theorem limits_serve (v : Validator) (r : Request) :
    (r.serve v).2.compiler.limits = v.compiler.limits := by
  have hprepared : (r.prepared v).compiler.limits = v.compiler.limits := by
    cases r with
    | pair source target =>
        rfl
    | function source =>
        exact v.compiler.limits_compile source
  rw [serve_eq]
  cases r.question v with
  | error e =>
      exact hprepared
  | ok q =>
      dsimp only
      rw [compiler_settle, hprepared]

theorem limits_after (v : Validator) (session : List Request) :
    (v.after session).compiler.limits = v.compiler.limits := by
  induction session generalizing v with
  | nil =>
      rfl
  | cons r rest ih =>
      exact (ih _).trans (limits_serve v r)

theorem question_pair {source : Calc.Function} {target : Tac.Function} {q : Query}
    (hdepth : v.compiler.limits.checkDepth source = .ok ())
    (hbuild : Query.build source target = .ok q) :
    (Request.pair source target).question v = .ok q := by
  simp only [Request.question, query, hdepth, hbuild]
  rfl

/-- What is asked in a session depends on the compiler alone. -/
theorem questions_congr {session : List Request} (h : v.compiler = v'.compiler) :
    v.questions session = v'.questions session ∧
      (v.after session).compiler = (v'.after session).compiler := by
  induction session generalizing v v' with
  | nil =>
      exact ⟨rfl, h⟩
  | cons r rest ih =>
      -- both validators are left with one compiler, whatever they remember
      rcases ih (compiler_serve h r) with ⟨hquestions, hafter⟩
      refine ⟨?_, hafter⟩
      rw [questions, questions, question_congr h, hquestions]

end Compilers

theorem verdict_after (settings : Settings) (session : List Request) (r : Request)
    (hnames : ∀ r' ∈ session ++ [r], r'.BarFree)
    (hdigest : Separates (· ∈ (ofSettings settings .congruence).questions (session ++ [r]))) :
    (r.serve ((ofSettings settings .congruence).after session)).1.map Report.verdict =
      r.verdict ((ofSettings settings .congruence).after session) := by
  have hasked : ∀ q ∈ (ofSettings settings .congruence).questions session,
      q ∈ (ofSettings settings .congruence).questions (session ++ [r]) :=
    fun q hq => mem_questions_append.2 (Or.inl hq)
  have hmemory := (remembers_ofSettings settings _).after
    (fun r' hr' => hnames r' (List.mem_append_left _ hr')) hasked
  refine hmemory.verdict_serve hdigest (hnames r (by simp)) ?_
  exact fun q hq => mem_questions_append.2 (Or.inr hq)

/-- In a session about names without bars, every verdict is the one that the oracle has on the
question itself, and so the one of a validator that remembers nothing. -/
theorem verdict_serve_after (settings : Settings) (session : List Request) (r : Request)
    (hnames : ∀ r' ∈ session ++ [r], r'.BarFree)
    (hdigest : Separates (· ∈ (ofSettings settings .congruence).questions (session ++ [r]))) :
    let v := (ofSettings settings .congruence).after session
    let forgetful := (ofSettings { settings with cacheVerdicts := false } .congruence).after session
    (r.serve v).1.map Report.verdict = r.verdict v ∧
      (r.serve v).1.map Report.verdict = (r.serve forgetful).1.map Report.verdict := by
  intro v forgetful
  have hcompiler : (ofSettings settings .congruence).compiler =
      (ofSettings { settings with cacheVerdicts := false } .congruence).compiler := rfl
  have hverdict := verdict_after settings session r hnames hdigest
  -- without memory the same questions are asked, so both answers are the oracle's
  have hforgetful := verdict_after { settings with cacheVerdicts := false } session r hnames
    ((questions_congr hcompiler).1 ▸ hdigest)
  refine ⟨hverdict, hverdict.trans ?_⟩
  refine Eq.trans ?_ hforgetful.symm
  rw [Request.verdict, Request.verdict, question_congr (questions_congr hcompiler).2]

theorem build_sample : ∃ q, Query.build Calc.sample Tac.sample = .ok q ∧ q.verdict = .pass := by
  rcases Query.exists_build_sample with ⟨q, hbuild⟩
  refine ⟨q, hbuild, ?_⟩
  have hunfolded : Calc.sample.unfolded = Tac.sample.toCalc.unfolded := by cbv
  rw [Query.verdict, (Query.unsat_iff_unfolded_eq hbuild).2 hunfolded]
  rfl

/-- Code for the sample is found correct, and a second time from memory. -/
theorem verdict_serve_after_sample :
    let r := Request.pair Calc.sample Tac.sample
    (r.serve ((ofSettings {} .congruence).after [r])).1.map Report.verdict = .ok .pass := by
  intro r
  rcases build_sample with ⟨q, hbuild, hpass⟩
  have hfirst : r.question (ofSettings {} .congruence) = .ok q :=
    question_pair Limits.checkDepth_sample hbuild
  have hsecond : r.question ((ofSettings {} .congruence).after [r]) = .ok q :=
    question_pair ((limits_after _ [r]).symm ▸ Limits.checkDepth_sample) hbuild
  have hsame : ∀ q' ∈ (ofSettings {} .congruence).questions ([r] ++ [r]), q' = q := by
    intro q' hq'
    simp only [mem_questions_append, mem_questions_cons, hfirst, hsecond] at hq'
    rcases hq' with (hq' | hq') | hq'
    · cases hq'
      rfl
    · cases hq'
    · cases hq'
      rfl
  have hnames : ∀ r' ∈ [r] ++ [r], r'.BarFree := by
    intro r' hr'
    have hr' : r' = r := by simpa using hr'
    subst hr'
    exact ⟨by decide, by decide, by decide⟩
  have hverdict := (verdict_serve_after {} [r] r hnames
    (fun q₁ h₁ q₂ h₂ _ => by rw [hsame q₁ h₁, hsame q₂ h₂])).1
  rw [hverdict, Request.verdict, hsecond]
  exact congrArg Except.ok hpass

/-! ## Questions that are written alike -/

/-- The second name reads as two symbols with a blank between them. -/
def alikeParams : List String :=
  ["a", "a| |a"]

def difference : Calc.Function :=
  { name := "f", params := alikeParams, body := [],
    result := .binary .sub (.var "a") (.var "a| |a") }

def differenceCode (x y : String) : Tac.Function :=
  { name := "f", params := alikeParams, body := [⟨"d", .binary .sub x y⟩], result := "d" }

/-- The statements of both in single-assignment form. -/
def differenceBody (x y : String) : List (Assignment Expr) :=
  [⟨"_calc_f_0", .binary .sub (.var "a") (.var "a| |a")⟩,
    ⟨"_tac_f_0", .binary .sub (.var x) (.var y)⟩]

theorem eq_of_mem_alikeParams {z : String} (hz : z ∈ alikeParams) : z = "a" ∨ z = "a| |a" := by
  simpa [alikeParams] using hz

theorem lookup_alikeParams {z : String} (hz : z ∈ alikeParams) :
    (Renaming.ofParams alikeParams).lookup "f" z = .ok z := by
  rw [Renaming.lookup, Renaming.getElem?_ofParams, if_pos hz]

theorem toSsa_difference : difference.toSsa = .ok
    { difference with
      body := [⟨"_calc_f_0", .binary .sub (.var "a") (.var "a| |a")⟩]
      result := .var "_calc_f_0" } := by
  have hname : nameAt (calcStem "f") 0 = "_calc_f_0" := by decide
  have hunowned : checkUnowned ⟨calcStem "f", 0⟩ alikeParams = .ok () := by decide
  simp [Calc.Function.toSsa, difference, Program.targets, ofStem, hunowned, SingleAssignment.body,
    Expr.rename, lookup_alikeParams (z := "a") (by decide),
    lookup_alikeParams (z := "a| |a") (by decide), bind, Except.bind, pure, Except.pure, nextName,
    hname]

theorem toSsa_differenceCode {x y : String} (hx : x ∈ alikeParams) (hy : y ∈ alikeParams) :
    (differenceCode x y).toSsa = .ok
      { differenceCode x y with
        body := [⟨"_tac_f_0", .binary .sub x y⟩]
        result := "_tac_f_0" } := by
  have hname : nameAt (tacStem "f") 0 = "_tac_f_0" := by decide
  have hunowned : checkUnowned ⟨tacStem "f", 0⟩ (alikeParams ++ ["d"]) = .ok () := by decide
  simp [Tac.Function.toSsa, differenceCode, Program.targets, ofStem, hunowned,
    SingleAssignment.body, Tac.Value.rename, lookup_alikeParams hx, lookup_alikeParams hy, bind,
    Except.bind, pure, Except.pure, Renaming.lookup_insert, nextName, hname]

theorem unfolded_difference :
    difference.unfolded = .ok (.binary .sub (.var "a") (.var "a| |a")) := by
  cbv

theorem unfolded_differenceCode {x y : String} (hx : x ∈ alikeParams) (hy : y ∈ alikeParams) :
    (differenceCode x y).toCalc.unfolded = .ok (.binary .sub (.var x) (.var y)) := by
  rcases eq_of_mem_alikeParams hx with rfl | rfl <;>
    rcases eq_of_mem_alikeParams hy with rfl | rfl <;> cbv

/-- The question whether code for the difference of `x` and `y` is right, and the answer to it. -/
theorem build_difference {x y : String} (hx : x ∈ alikeParams) (hy : y ∈ alikeParams) :
    ∃ q, Query.build difference (differenceCode x y) = .ok q ∧
      q.script = Encoding.scriptOf
        (Query.namesMet (differenceBody x y) "_calc_f_0" "_tac_f_0")
        [Query.goalOf (differenceBody x y) "_calc_f_0" "_tac_f_0"] ∧
      (Congruence.decide q.script.assertions.toList = .unsat ↔ "a" = x ∧ "a| |a" = y) := by
  have hdisjoint : Query.checkDisjoint difference (differenceCode x y) = .ok () := by
    rcases eq_of_mem_alikeParams hx with rfl | rfl <;>
      rcases eq_of_mem_alikeParams hy with rfl | rfl <;> decide
  have hq := Query.build_eq_ok.2 ⟨rfl, hdisjoint, _, _, _, toSsa_difference,
    toSsa_differenceCode hx hy, rfl, rfl⟩
  refine ⟨_, hq, Query.script_ofSsa _ _ _, ?_⟩
  rw [Query.unsat_iff_unfolded_eq hq, unfolded_difference, unfolded_differenceCode hx hy]
  simp

theorem smtlib_scriptOf {names : List String} {f f' : Formula} (h : f.smtlib = f'.smtlib) :
    (Encoding.scriptOf names [f]).smtlib = (Encoding.scriptOf names [f']).smtlib := by
  have htext : Script.assertText f = Script.assertText f' := by
    unfold Script.assertText
    rw [h]
  unfold Script.smtlib Encoding.scriptOf
  simp only [List.map_cons, htext, List.map_nil]

/-- A subtraction is found correct, and then the one with its operands exchanged is as well, since
its question has the same text. The oracle has a counterexample to it. -/
theorem verdict_of_question_written_alike :
    let first := Request.pair difference (differenceCode "a" "a| |a")
    let second := Request.pair difference (differenceCode "a| |a" "a")
    let v := (ofSettings {} .congruence).after [first]
    ∃ q q' m, (ofSettings {} .congruence).questions [first, second] = [q, q'] ∧
      q.script.smtlib = q'.script.smtlib ∧
      Congruence.decide q'.script.assertions.toList = .sat m ∧
      second.verdict v = .ok (.fail m) ∧
      (second.serve v).1.map Report.verdict = .ok .pass := by
  intro first second v
  rcases build_difference (x := "a") (y := "a| |a") (by decide) (by decide) with
    ⟨q, hbuild, hscript, hunsat⟩
  rcases build_difference (x := "a| |a") (y := "a") (by decide) (by decide) with
    ⟨q', hbuild', hscript', hunsat'⟩
  have hdepth : ({} : Limits).checkDepth difference = .ok () := by cbv
  have hfirst : first.question (ofSettings {} .congruence) = .ok q := question_pair hdepth hbuild
  have hsecond : second.question v = .ok q' :=
    question_pair ((limits_after _ [first]).symm ▸ hdepth) hbuild'
  have htext : q.script.smtlib = q'.script.smtlib := by
    rw [hscript, hscript']
    exact smtlib_scriptOf (by decide)
  -- the first question is refuted, so an agreement is remembered
  have hpass : q.verdict = .pass := by
    rw [Query.verdict, hunsat.2 ⟨rfl, rfl⟩]
    rfl
  have hmemory : v.remembered? q'.fingerprint = some .pass := by
    have hsettle : v = ((ofSettings {} .congruence).settle q).2 := by
      change (first.serve _).2 = _
      rw [serve_eq, hfirst]
      rfl
    rw [hsettle, Query.fingerprint, ← htext, ← hpass]
    exact remembered_settle rfl rfl (by simp [remembered?, ofSettings]) (by rw [hpass]; rfl)
  -- the second one has a model
  have hsat : ∃ m, Congruence.decide q'.script.assertions.toList = .sat m := by
    have hne := mt hunsat'.1 (by decide)
    rw [hscript'] at hne ⊢
    rcases Query.exists_model_of_decide_goalOf hne with ⟨m, hm, _⟩
    exact ⟨m, hm⟩
  rcases hsat with ⟨m, hm⟩
  refine ⟨q, q', m, ?_, htext, hm, ?_, ?_⟩
  · change (first.question _).toOption.toList ++ ((second.question v).toOption.toList ++ []) = _
    rw [hfirst, hsecond]
    rfl
  · rw [Request.verdict, hsecond]
    simp only [Query.verdict, hm]
    rfl
  · rw [serve_eq, hsecond]
    change (v.settle q').1.map Report.verdict = _
    rw [settle_of_remembered hmemory]
    rfl

end Validator

end StraightLine
