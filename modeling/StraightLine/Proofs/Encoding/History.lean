import StraightLine.Proofs.Declarations

/-!
# History — an encoding after any requests

The constants of the names that were met are kept twice, in the table that is asked first and in the
declarations of the script. No order of requests drives the two apart, so whatever the encoding
answers, and whatever is asserted of its answers, stays inside the script.

* `Term.Over`, `Formula.Over` — declared symbols, applied to arguments of their domain;
* `Request`, `History`, `History.after` — what an encoding is asked, and what it has answered;
* `History.Built`, `History.AllowsAll` — what may be asserted;
* `History.Consistent` — the invariant, for one request and for all;
* `History.WellFormed`, `History.wellFormed_after` — what it means for the table, the script and
  the answers, and for the script of a question.
-/

namespace StraightLine

open Smt

namespace Smt

/-! ## Terms over a script -/

namespace Term

mutual

/-- Declared constants, and declared functions applied to arguments of their domain. -/
def Over (s : Script) : Term → Prop
  | const c => c ∈ s.constants
  | app f args => f ∈ s.functions ∧ args.map Term.sort = f.domain ∧ AllOver s args

def AllOver (s : Script) : List Term → Prop
  | [] => True
  | t :: rest => t.Over s ∧ AllOver s rest

end

end Term

namespace Formula

mutual

/-- Equations between terms of one sort over the script, and connectives. -/
def Over (s : Script) : Formula → Prop
  | eq left right => left.Over s ∧ right.Over s ∧ left.sort = right.sort
  | not inner => inner.Over s
  | and conjuncts => AllOver s conjuncts
  | implies antecedent consequent => antecedent.Over s ∧ consequent.Over s

def AllOver (s : Script) : List Formula → Prop
  | [] => True
  | f :: rest => f.Over s ∧ AllOver s rest

end

theorem allOver_iff {s : Script} {fs : List Formula} :
    AllOver s fs ↔ ∀ f ∈ fs, f.Over s := by
  induction fs with
  | nil =>
      simp [AllOver]
  | cons f rest ih =>
      simp [AllOver, ih]

end Formula

mutual

theorem Term.Over.constants {s : Script} :
    ∀ {t : Term}, t.Over s → ∀ c ∈ t.constants, c ∈ s.constants
  | .const _, hover, _, hc => List.mem_singleton.1 hc ▸ hover
  | .app _ _, ⟨_, _, hargs⟩, c, hc => Term.AllOver.constants hargs c hc

theorem Term.AllOver.constants {s : Script} :
    ∀ {ts : List Term}, Term.AllOver s ts → ∀ c ∈ Term.constantsOf ts, c ∈ s.constants
  | [], _, _, hc => nomatch hc
  | _ :: _, ⟨ht, hrest⟩, c, hc =>
      (List.mem_append.1 hc).elim (Term.Over.constants ht c) (Term.AllOver.constants hrest c)

end

mutual

theorem Formula.Over.constants {s : Script} :
    ∀ {f : Formula}, f.Over s → ∀ c ∈ f.constants, c ∈ s.constants
  | .eq _ _, ⟨hleft, hright, _⟩, c, hc =>
      (List.mem_append.1 hc).elim (hleft.constants c) (hright.constants c)
  | .not inner, hinner, c, hc => Formula.Over.constants (f := inner) hinner c hc
  | .and _, hconjuncts, c, hc => Formula.AllOver.constants hconjuncts c hc
  | .implies _ _, ⟨ha, hf⟩, c, hc =>
      (List.mem_append.1 hc).elim (Formula.Over.constants ha c) (Formula.Over.constants hf c)

theorem Formula.AllOver.constants {s : Script} :
    ∀ {fs : List Formula}, Formula.AllOver s fs → ∀ c ∈ Formula.constantsOf fs, c ∈ s.constants
  | [], _, _, hc => nomatch hc
  | _ :: _, ⟨hf, hrest⟩, c, hc =>
      (List.mem_append.1 hc).elim (Formula.Over.constants hf c) (Formula.AllOver.constants hrest c)

end

/-- Every declaration of the first script is one of the second. -/
structure Script.Grows (s s' : Script) : Prop where
  functions : ∀ f ∈ s.functions, f ∈ s'.functions
  constants : ∀ c ∈ s.constants, c ∈ s'.constants

mutual

theorem Term.Over.mono {s s' : Script} (h : s.Grows s') : ∀ {t : Term}, t.Over s → t.Over s'
  | .const c, hc => h.constants c hc
  | .app f _, ⟨hf, hsorts, hargs⟩ => ⟨h.functions f hf, hsorts, Term.AllOver.mono h hargs⟩

theorem Term.AllOver.mono {s s' : Script} (h : s.Grows s') :
    ∀ {ts : List Term}, Term.AllOver s ts → Term.AllOver s' ts
  | [], _ => trivial
  | _ :: _, ⟨ht, hrest⟩ => ⟨Term.Over.mono h ht, Term.AllOver.mono h hrest⟩

end

mutual

theorem Formula.Over.mono {s s' : Script} (h : s.Grows s') :
    ∀ {f : Formula}, f.Over s → f.Over s'
  | .eq _ _, ⟨hleft, hright, hsort⟩ => ⟨hleft.mono h, hright.mono h, hsort⟩
  | .not inner, hinner => Formula.Over.mono (f := inner) h hinner
  | .and _, hconjuncts => Formula.AllOver.mono h hconjuncts
  | .implies _ _, ⟨ha, hc⟩ => ⟨Formula.Over.mono h ha, Formula.Over.mono h hc⟩

theorem Formula.AllOver.mono {s s' : Script} (h : s.Grows s') :
    ∀ {fs : List Formula}, Formula.AllOver s fs → Formula.AllOver s' fs
  | [], _ => trivial
  | _ :: _, ⟨hf, hrest⟩ => ⟨Formula.Over.mono h hf, Formula.AllOver.mono h hrest⟩

end

end Smt

namespace Encoding

/-! ## Names in the order in which they are met -/

/-- A name that is met again is left where it is. -/
theorem meetAll_nil (xs : List String) : meetAll [] xs = xs.eraseDups := by
  induction xs using List.reverseRecOn with
  | nil =>
      rfl
  | append_singleton xs x ih =>
      rw [meetAll_append, ih, List.eraseDups_append]
      change meet xs.eraseDups x = _
      by_cases hx : x ∈ xs
      · simp [meet, List.removeAll, hx]
      · simp [meet, List.removeAll, hx, List.eraseDups_cons]

theorem nodup_eraseDups (xs : List String) : xs.eraseDups.Nodup :=
  meetAll_nil xs ▸ nodup_meetAll List.nodup_nil xs

section Scripts

variable {names : List String} {assertions : List Formula}

theorem mem_constants_scriptOf {c : Constant} :
    c ∈ (scriptOf names assertions).constants ↔ ∃ x ∈ names, constantOf x = c := by
  simp [scriptOf]

theorem grows_scriptOf {names' : List String} {assertions' : List Formula}
    (h : ∀ x ∈ names, x ∈ names') :
    (scriptOf names assertions).Grows (scriptOf names' assertions') where
  functions := fun _ hf => hf
  constants := by
    intro c hc
    rcases mem_constants_scriptOf.1 hc with ⟨x, hx, hxc⟩
    exact mem_constants_scriptOf.2 ⟨x, h x hx, hxc⟩

/-- Meeting a name declares its constant, unless it is declared. -/
theorem script_constant {enc : Encoding} (h : enc.Declares names assertions) (x : String) :
    (enc.constant x).2.script = enc.script.declareConstant (constantOf x) := by
  rw [(constant_spec h x).2.script, h.script, declareConstant_scriptOf]

theorem over_termOf {e : Expr} (h : ∀ x ∈ e.reads, x ∈ names) :
    (termOf e).Over (scriptOf names assertions) := by
  induction e with
  | var x =>
      exact mem_constants_scriptOf.2 ⟨x, h x (List.mem_singleton.2 rfl), rfl⟩
  | binary op left right ihl ihr =>
      have hop : operatorSymbol op ∈ (scriptOf names assertions).functions := by
        simpa [scriptOf] using ⟨op, Operator.mem_all op, rfl⟩
      have hsorts : [termOf left, termOf right].map Term.sort = (operatorSymbol op).domain := by
        simp [sort_termOf, operatorSymbol]
      exact ⟨hop, hsorts, ihl fun x hx => h x (List.mem_append_left _ hx),
        ihr fun x hx => h x (List.mem_append_right _ hx), trivial⟩

theorem over_equationOf {s : Assignment Expr} (h : ∀ x ∈ namesOf s, x ∈ names) :
    (equationOf s).Over (scriptOf names assertions) :=
  ⟨mem_constants_scriptOf.2 ⟨s.target, h _ List.mem_cons_self, rfl⟩,
    over_termOf fun x hx => h x (List.mem_cons_of_mem _ hx), (sort_termOf s.value).symm⟩

end Scripts

/-! ## Requests -/

/-- What an encoding is asked. -/
inductive Request where
  | constant (name : String)
  | expr (e : Expr)
  | source (f : Calc.Function)
  | target (f : Tac.Function)
  | assert (f : Formula)

namespace Request

/-- The names that a request meets, with repeats. -/
def names : Request → List String
  | constant name => [name]
  | expr e => e.reads
  | source f => f.body.flatMap namesOf
  | target f => f.toCalc.body.flatMap namesOf
  | assert _ => []

def asserted : Request → List Formula
  | constant _ | expr _ | source _ | target _ => []
  | assert f => [f]

end Request

/-- An encoding with everything that it has answered. -/
structure History where
  encoding : Encoding
  terms : List Term
  formulas : List Formula

namespace History

def empty : History :=
  { encoding := .empty, terms := [], formulas := [] }

def serve (h : History) : Request → History
  | .constant name =>
      let (c, enc) := h.encoding.constant name
      { h with encoding := enc, terms := h.terms ++ [.const c] }
  | .expr e =>
      let (t, enc) := h.encoding.expr e
      { h with encoding := enc, terms := h.terms ++ [t] }
  | .source f =>
      let (equations, enc) := h.encoding.calcBody f
      { h with encoding := enc, formulas := h.formulas ++ equations }
  | .target f =>
      let (equations, enc) := h.encoding.tacBody f
      { h with encoding := enc, formulas := h.formulas ++ equations }
  | .assert f => { h with encoding := h.encoding.assert f }

/-- The history after requests in turn. -/
def after (requests : List Request) : History :=
  requests.foldl serve empty

/-- Answers, equations between answered terms, and connectives over them. -/
inductive Built (h : History) : Formula → Prop where
  | answer {f : Formula} : f ∈ h.formulas → Built h f
  | eq {s t : Term} : s ∈ h.terms → t ∈ h.terms → Built h (.eq s t)
  | not {f : Formula} : Built h f → Built h (.not f)
  | and {fs : List Formula} : (∀ f ∈ fs, Built h f) → Built h (.and fs)
  | implies {f g : Formula} : Built h f → Built h g → Built h (.implies f g)

/-- Only what is built from answers may be asserted. -/
def Allows (h : History) : Request → Prop
  | .assert f => h.Built f
  | _ => True

/-- Each request is allowed when its turn comes. -/
def AllowsAll : History → List Request → Prop
  | _, [] => True
  | h, r :: rest => h.Allows r ∧ AllowsAll (h.serve r) rest

/-! ## One request -/

/-- The table and the script agree on the names, and answers and assertions are over the script. -/
structure Consistent (h : History) (names : List String) (asserted : List Formula) : Prop where
  declares : h.encoding.Declares (meetAll [] names) asserted
  terms : ∀ t ∈ h.terms, t.Over h.encoding.script ∧ t.sort = valueSort
  formulas : ∀ f ∈ h.formulas, f.Over h.encoding.script
  asserted : ∀ f ∈ asserted, f.Over h.encoding.script

theorem consistent_empty : empty.Consistent [] [] where
  declares := declares_empty
  terms := fun _ ht => nomatch ht
  formulas := fun _ hf => nomatch hf
  asserted := fun _ hf => nomatch hf

section Requests

variable {h : History} {names : List String} {asserted : List Formula}

theorem Built.over (hc : h.Consistent names asserted) {f : Formula} (hf : h.Built f) :
    f.Over h.encoding.script := by
  induction hf with
  | answer hf =>
      exact hc.formulas _ hf
  | eq hs ht =>
      rcases hc.terms _ hs with ⟨hs, hsort⟩
      rcases hc.terms _ ht with ⟨ht, hsort'⟩
      exact ⟨hs, ht, hsort.trans hsort'.symm⟩
  | not _ ih =>
      exact ih
  | and _ ih =>
      exact Formula.allOver_iff.2 ih
  | implies _ _ ihf ihg =>
      exact ⟨ihf, ihg⟩

/-- New answers over a script that has only grown. -/
theorem Consistent.answer (hc : h.Consistent names asserted) {enc : Encoding} {more : List String}
    (hdeclares : enc.Declares (meetAll (meetAll [] names) more) asserted) (terms : List Term)
    (hterms : ∀ t ∈ terms, t.Over enc.script ∧ t.sort = valueSort) (formulas : List Formula)
    (hformulas : ∀ f ∈ formulas, f.Over enc.script) :
    Consistent ⟨enc, h.terms ++ terms, h.formulas ++ formulas⟩ (names ++ more) asserted := by
  -- names are added and none is taken away
  have hgrows : h.encoding.script.Grows enc.script := by
    rw [hc.declares.script, hdeclares.script]
    exact grows_scriptOf fun x hx => mem_meetAll.2 (Or.inl hx)
  refine ⟨?_, ?_, ?_, ?_⟩
  · rw [meetAll_append]
    exact hdeclares
  · intro t ht
    rcases List.mem_append.1 ht with ht | ht
    · rcases hc.terms t ht with ⟨hover, hsort⟩
      exact ⟨hover.mono hgrows, hsort⟩
    · exact hterms t ht
  · intro f hf
    rcases List.mem_append.1 hf with hf | hf
    · exact (hc.formulas f hf).mono hgrows
    · exact hformulas f hf
  · intro f hf
    exact (hc.asserted f hf).mono hgrows

theorem Consistent.answerTerm (hc : h.Consistent names asserted) {enc : Encoding}
    (more : List String) (hdeclares : enc.Declares (meetAll (meetAll [] names) more) asserted)
    {t : Term} (hover : t.Over enc.script) (hsort : t.sort = valueSort) :
    Consistent ⟨enc, h.terms ++ [t], h.formulas⟩ (names ++ more) asserted := by
  simpa using hc.answer hdeclares [t] (by simp [hover, hsort]) [] (by simp)

/-- The equations of a body are over the script in which its names are declared. -/
theorem Consistent.assignments (hc : h.Consistent names asserted)
    (body : List (Assignment Expr)) :
    Consistent ⟨(h.encoding.assignments body).2, h.terms,
      h.formulas ++ (h.encoding.assignments body).1⟩ (names ++ body.flatMap namesOf) asserted := by
  rcases assignments_spec body hc.declares with ⟨hequations, hdeclares⟩
  have hover : ∀ f ∈ (h.encoding.assignments body).1,
      f.Over (h.encoding.assignments body).2.script := by
    intro f hf
    rw [hequations] at hf
    rcases List.mem_map.1 hf with ⟨s, hs, rfl⟩
    rw [hdeclares.script]
    refine over_equationOf fun x hx => mem_meetAll.2 (Or.inr ?_)
    exact List.mem_flatMap.2 ⟨s, hs, hx⟩
  simpa using hc.answer hdeclares [] (by simp) _ hover

/-- A request adds the names that it meets and what it asserts. -/
theorem Consistent.serve (hc : h.Consistent names asserted) {r : Request} (hr : h.Allows r) :
    (h.serve r).Consistent (names ++ r.names) (asserted ++ r.asserted) := by
  cases r with
  | constant x =>
      rcases constant_spec hc.declares x with ⟨hconstant, hdeclares⟩
      have hover : (Term.const (h.encoding.constant x).1).Over
          (h.encoding.constant x).2.script := by
        rw [hconstant, hdeclares.script]
        exact mem_constants_scriptOf.2 ⟨x, mem_meet.2 (Or.inr rfl), rfl⟩
      rw [Request.asserted, List.append_nil]
      exact hc.answerTerm [x] hdeclares hover (congrArg Constant.sort hconstant)
  | expr e =>
      rcases expr_spec e hc.declares with ⟨hterm, hdeclares⟩
      have hover : (h.encoding.expr e).1.Over (h.encoding.expr e).2.script := by
        rw [hterm, hdeclares.script]
        exact over_termOf fun x hx => mem_meetAll.2 (Or.inr hx)
      rw [Request.asserted, List.append_nil]
      exact hc.answerTerm e.reads hdeclares hover (hterm ▸ sort_termOf e)
  | source f =>
      rw [Request.asserted, List.append_nil]
      exact hc.assignments f.body
  | target f =>
      rw [Request.asserted, List.append_nil]
      exact hc.assignments f.toCalc.body
  | assert f =>
      -- the declarations stay, and what is asserted is built from answers
      have hgrows : h.encoding.script.Grows (h.encoding.assert f).script :=
        ⟨fun _ hf => hf, fun _ hc => hc⟩
      refine ⟨?_, ?_, ?_, ?_⟩
      · rw [Request.names, List.append_nil]
        exact assert_spec f hc.declares
      · intro t ht
        rcases hc.terms t ht with ⟨hover, hsort⟩
        exact ⟨hover.mono hgrows, hsort⟩
      · intro g hg
        exact (hc.formulas g hg).mono hgrows
      · intro g hg
        rcases List.mem_append.1 hg with hg | hg
        · exact (hc.asserted g hg).mono hgrows
        · rw [List.mem_singleton.1 hg]
          exact (Built.over hc hr).mono hgrows

/-! ## All requests -/

theorem Consistent.serveAll {requests : List Request} (hc : h.Consistent names asserted)
    (hr : h.AllowsAll requests) :
    (requests.foldl History.serve h).Consistent (names ++ requests.flatMap Request.names)
      (asserted ++ requests.flatMap Request.asserted) := by
  induction requests generalizing h names asserted with
  | nil =>
      simpa using hc
  | cons r rest ih =>
      simpa using ih (hc.serve hr.1) hr.2

theorem consistent_after {requests : List Request} (h : empty.AllowsAll requests) :
    (after requests).Consistent (requests.flatMap Request.names)
      (requests.flatMap Request.asserted) :=
  consistent_empty.serveAll h

end Requests

/-! ## What a history looks like -/

/-- The names that were met, what was asserted, and what the encoding has answered and would answer
next. -/
structure WellFormed (h : History) (requests : List Request) : Prop where
  sorts : h.encoding.script.sorts = #[valueSort]
  functions : h.encoding.script.functions.toList = Operator.all.map operatorSymbol
  constants : h.encoding.script.constants.toList =
    (requests.flatMap Request.names).eraseDups.map constantOf
  nodup : h.encoding.script.constants.toList.Nodup
  table : ∀ x c, h.encoding.constants[x]? = some c ↔
    c ∈ h.encoding.script.constants ∧ c.name = x
  declare : ∀ x, (h.encoding.constant x).2.script =
    h.encoding.script.declareConstant (constantOf x)
  asserted : h.encoding.script.assertions.toList = requests.flatMap Request.asserted
  terms : ∀ t ∈ h.terms, t.Over h.encoding.script ∧ t.sort = valueSort
  formulas : ∀ f ∈ h.formulas, f.Over h.encoding.script
  assertions : ∀ f ∈ h.encoding.script.assertions, f.Over h.encoding.script
  calcBody : ∀ f, (h.encoding.calcBody f).1 = f.body.map equationOf
  tacBody : ∀ f, (h.encoding.tacBody f).1 = f.toCalc.body.map equationOf

theorem wellFormed_of_consistent {h : History} {requests : List Request}
    (hc : h.Consistent (requests.flatMap Request.names) (requests.flatMap Request.asserted)) :
    h.WellFormed requests := by
  have hscript := hc.declares.script
  rw [meetAll_nil] at hscript
  refine ⟨?_, ?_, ?_, ?_, ?_, script_constant hc.declares, ?_, hc.terms, hc.formulas, ?_, ?_, ?_⟩
  · simp [hscript, scriptOf]
  · simp [hscript, scriptOf]
  · simp [hscript, scriptOf]
  · rw [hscript]
    exact (nodup_eraseDups _).map fun x y hxy => congrArg Constant.name hxy
  · intro x c
    rw [hc.declares.table x, hscript, mem_constants_scriptOf, meetAll_nil]
    constructor
    · intro hx
      split at hx
      · next hmem =>
          cases hx
          exact ⟨⟨x, hmem, rfl⟩, rfl⟩
      · cases hx
    · rintro ⟨⟨y, hy, rfl⟩, rfl⟩
      exact if_pos hy
  · simp [hscript, scriptOf]
  · intro f hf
    refine hc.asserted f ?_
    simpa [hscript, scriptOf] using hf
  · intro f
    exact (assignments_spec f.body hc.declares).1
  · intro f
    exact (assignments_spec f.toCalc.body hc.declares).1

/-- The script of a question is that of an encoding after both bodies, both returned names and the
assertion. -/
theorem exists_script_ofSsa (source : Calc.Function) (r : String) (target : Tac.Function) :
    ∃ requests, empty.AllowsAll requests ∧
      (Query.ofSsa source r target).script = (after requests).encoding.script := by
  let before : List Request :=
    [.source source, .target target, .constant r, .constant target.result]
  let f := Query.goalOf (source.body ++ target.toCalc.body) r target.result
  have hbuilt : (after before).Built f := by
    rcases assignments_spec source.body declares_empty with ⟨hsource, hdeclares⟩
    rcases assignments_spec target.toCalc.body hdeclares with ⟨htarget, hdeclares⟩
    rcases constant_spec hdeclares r with ⟨hr, hdeclares⟩
    have hr' := (constant_spec hdeclares target.result).1
    have hformulas : (after before).formulas =
        (source.body ++ target.toCalc.body).map equationOf := by
      rw [List.map_append, ← hsource, ← htarget]
      rfl
    have hterms : (after before).terms =
        [.const (constantOf r), .const (constantOf target.result)] := by
      rw [← hr', ← hr]
      rfl
    refine .not (.implies (.and fun g hg => .answer (hformulas ▸ hg)) (.eq ?_ ?_))
    · simp [hterms]
    · simp [hterms]
  have hallows : empty.AllowsAll (before ++ [.assert f]) :=
    ⟨trivial, trivial, trivial, trivial, hbuilt, trivial⟩
  refine ⟨before ++ [.assert f], hallows, ?_⟩
  rw [Query.script_ofSsa, (consistent_after hallows).declares.script]
  simp [before, f, Query.namesMet, Request.names, Request.asserted]

/-- After any requests an encoding is well formed, and the script of a question is that of such an
encoding. It declares the constants of its one assertion. -/
theorem wellFormed_after :
    (∀ requests, empty.AllowsAll requests → (after requests).WellFormed requests) ∧
    ∀ source target q, Query.build source target = .ok q →
      (∃ requests, empty.AllowsAll requests ∧
        q.script = (after requests).encoding.script) ∧
      ∃ f, q.script.assertions.toList = [f] ∧ ∀ c, c ∈ q.script.constants ↔ c ∈ f.constants := by
  have hafter : ∀ requests, empty.AllowsAll requests → (after requests).WellFormed requests :=
    fun requests hr => wellFormed_of_consistent (consistent_after hr)
  refine ⟨hafter, ?_⟩
  intro source target q hbuild
  have hrequests : ∃ requests, empty.AllowsAll requests ∧
      q.script = (after requests).encoding.script := by
    rcases Query.build_eq_ok.1 hbuild with ⟨_, _, gs, gt, r, _, _, _, rfl⟩
    exact exists_script_ofSsa gs r gt
  refine ⟨hrequests, ?_⟩
  rcases hrequests with ⟨requests, hr, hscript⟩
  rcases Query.build_spec hbuild with ⟨gs, gt, _, _, _, _, _, hassertions, hconstants⟩
  refine ⟨_, hassertions, fun c => ⟨hconstants c, fun hc => ?_⟩⟩
  have hover : (Query.goalOf (gs.body ++ gt.body) q.sourceReturn q.targetReturn).Over q.script := by
    rw [hscript] at hassertions ⊢
    refine (hafter requests hr).assertions _ ?_
    rw [← Array.mem_toList_iff, hassertions]
    exact List.mem_singleton_self _
  exact hover.constants c hc

/-- Both samples and two names, with an assertion in which one of these is met before its statement.
-/
theorem wellFormed_after_samples :
    let denial : Formula := .not (.eq (.const (constantOf "z")) (.const (constantOf "a")))
    let requests : List Request :=
      [.source Calc.sample, .constant "z", .constant "a", .assert denial, .target Tac.sample]
    empty.AllowsAll requests ∧
      (after requests).encoding.script.constants.toList =
        ["z", "s1", "t1", "s2", "t2", "a", "b", "c"].map constantOf ∧
      (after requests).encoding.script.assertions.toList = [denial] ∧
      ∃ q, Query.build Calc.sample Tac.sample = .ok q ∧
        ∃ f, q.script.assertions.toList = [f] ∧
          ∀ c, c ∈ q.script.constants ↔ c ∈ f.constants := by
  intro denial requests
  have hallows : empty.AllowsAll requests := by
    rcases assignments_spec Calc.sample.body declares_empty with ⟨_, hdeclares⟩
    rcases constant_spec hdeclares "z" with ⟨hz, hdeclares⟩
    have ha := (constant_spec hdeclares "a").1
    have hterms : (after (requests.take 3)).terms =
        [.const (constantOf "z"), .const (constantOf "a")] := by
      rw [← ha, ← hz]
      rfl
    refine ⟨trivial, trivial, trivial, ?_, trivial, trivial⟩
    refine .not (.eq (h := after (requests.take 3)) ?_ ?_)
    · simp [hterms]
    · simp [hterms]
  have hformed := wellFormed_after.1 requests hallows
  rcases Query.exists_build_sample with ⟨q, hbuild⟩
  refine ⟨hallows, ?_, ?_, q, hbuild, (wellFormed_after.2 _ _ q hbuild).2⟩
  · rw [hformed.constants]
    decide
  · rw [hformed.asserted]
    rfl

end History

end Encoding

end StraightLine
