import StraightLine.Proofs.Query
import StraightLine.Proofs.Smt.Rendering

/-!
# Fingerprint — questions that are written alike

The fingerprint of a question is that of its text, and the text is read back as the commands of the
script unless some name has a bar of its own. The commands show all that a script of a question
holds, so questions without such names are the same if their texts are.

* `Encoding.sexpr_termOf_inj`, `Query.sexpr_goalOf_inj` — what is read determines what was written;
* `SingleAssignment.Converts.mem_names` — the names of a converted function;
* `Query.Readable` — no name of the question has a bar;
* `Query.readable_build` — when a question about two functions is readable;
* `Query.Readable.script_eq` — readable questions with one text have one script;
* `Query.eq_of_script_eq` — a script belongs to one question;
* `Query.question_of_text` — what the text and the fingerprint say about a question.
-/

namespace StraightLine

open Smt SingleAssignment FreshNames

/-! ## What is read determines what was written -/

namespace Encoding

theorem operatorName_injective : Function.Injective operatorName := by
  intro a b h
  revert h
  cases a <;> cases b <;> decide

theorem sexpr_termOf_inj {e e' : Expr} (h : (termOf e).sexpr = (termOf e').sexpr) : e = e' := by
  induction e generalizing e' with
  | var x =>
      cases e' with
      | var y =>
          exact congrArg Expr.var (symbol_injective h)
      | binary op left right =>
          cases h
  | binary op left right ihl ihr =>
      cases e' with
      | var y =>
          cases h
      | binary op' left' right' =>
          simp only [termOf, Term.sexpr, Term.sexprs, SExpr.list.injEq, List.cons.injEq,
            and_true] at h
          rcases h with ⟨hop, hleft, hright⟩
          rw [operatorName_injective (symbol_injective hop), ihl hleft, ihr hright]

theorem sexpr_equationOf_inj {s s' : Assignment Expr}
    (h : (equationOf s).sexpr = (equationOf s').sexpr) : s = s' := by
  simp only [equationOf, Formula.sexpr, SExpr.list.injEq, List.cons.injEq, and_true] at h
  rcases h with ⟨_, htarget, hvalue⟩
  have htarget : s.target = s'.target := symbol_injective htarget
  cases s
  cases s'
  rw [Assignment.mk.injEq]
  exact ⟨htarget, sexpr_termOf_inj hvalue⟩

theorem sexprs_equations_inj {body body' : List (Assignment Expr)}
    (h : Formula.sexprs (body.map equationOf) = Formula.sexprs (body'.map equationOf)) :
    body = body' := by
  induction body generalizing body' with
  | nil =>
      cases body' with
      | nil =>
          rfl
      | cons s' rest' =>
          cases h
  | cons s rest ih =>
      cases body' with
      | nil =>
          cases h
      | cons s' rest' =>
          simp only [List.map_cons, Formula.sexprs, List.cons.injEq] at h
          rw [sexpr_equationOf_inj h.1, ih h.2]

/-- A single equation and a conjunction start with different words. -/
theorem sexpr_equations_inj {body body' : List (Assignment Expr)}
    (h : (Formula.and (body.map equationOf)).sexpr = (Formula.and (body'.map equationOf)).sexpr) :
    body = body' := by
  have hwords : word "=" ≠ word "and" := by
    intro heq
    injection heq with heq
    exact absurd heq (by decide)
  match body, body', h with
  | [], [], _ => rfl
  | [s], [s'], h => rw [sexpr_equationOf_inj h]
  | s :: t :: rest, s' :: t' :: rest', h =>
      simp only [List.map_cons, Formula.sexpr, SExpr.list.injEq, List.cons.injEq, true_and] at h
      exact sexprs_equations_inj h
  | [_], _ :: _ :: _, h =>
      injection h with h
      exact absurd (List.cons.inj h).1 hwords
  | _ :: _ :: _, [_], h =>
      injection h with h
      exact absurd (List.cons.inj h).1.symm hwords
  | [], [_], h => cases h
  | [], _ :: _ :: _, h => cases h
  | [_], [], h => cases h
  | _ :: _ :: _, [], h => cases h

end Encoding

namespace Query

theorem sexpr_goalOf_inj {body body' : List (Assignment Expr)} {r r' s s' : String}
    (h : (goalOf body r r').sexpr = (goalOf body' s s').sexpr) :
    body = body' ∧ r = s ∧ r' = s' := by
  simp only [goalOf, goal, Formula.sexpr, Term.sexpr, SExpr.list.injEq, List.cons.injEq, and_true,
    true_and] at h
  rcases h with ⟨hbody, hr, hr'⟩
  exact ⟨Encoding.sexpr_equations_inj hbody, symbol_injective hr, symbol_injective hr'⟩

/-- The commands show the names that are declared and what is asserted. -/
theorem commands_scriptOf_inj {names names' : List String} {f f' : Formula}
    (h : (Encoding.scriptOf names [f]).commands = (Encoding.scriptOf names' [f']).commands) :
    names = names' ∧ f.sexpr = f'.sexpr := by
  have hconstant : Function.Injective fun x => Script.constantCommand (Encoding.constantOf x) := by
    intro x y hxy
    simp only [Script.constantCommand, SExpr.list.injEq, List.cons.injEq, true_and] at hxy
    exact symbol_injective hxy.1
  simp only [Script.commands, Encoding.scriptOf, List.append_assoc, List.append_cancel_left_eq,
    List.map_map, List.map_cons, List.map_nil] at h
  -- one assertion stands at the end of both, so the declarations before it are split off
  rcases List.append_inj' h rfl with ⟨hnames, hassert⟩
  refine ⟨List.map_injective_iff.2 hconstant hnames, ?_⟩
  simpa [Script.assertCommand] using hassert

end Query

/-! ## Legible names -/

theorem Smt.barFree_nameAt {stem : String} (h : BarFree stem) (k : Nat) :
    BarFree (nameAt stem k) := by
  rw [BarFree, toList_nameAt, List.mem_append, List.mem_cons, not_or, not_or]
  refine ⟨h, by decide, ?_⟩
  intro hmem
  have := List.all_eq_true.1 (all_isDigit_toDigits k) '|' hmem
  exact absurd this (by decide)

namespace SingleAssignment

variable {stem : String} {f g : Calc.Function}

theorem Converts.exists_nameAt (h : Converts stem f g) {x : String} (hx : x ∈ g.targets) :
    ∃ k, x = nameAt stem k := by
  rw [h.targets] at hx
  rcases List.mem_map.1 hx with ⟨k, _, rfl⟩
  exact ⟨k, rfl⟩

/-- A converted function has the parameters and generated names only. -/
theorem Converts.mem_names (h : Converts stem f g) {r : String} (hr : g.result = .var r)
    {x : String} (hx : x ∈ g.body.flatMap Encoding.namesOf ∨ x = r) :
    x ∈ f.params ∨ ∃ k, x = nameAt stem k := by
  rcases hx with hx | rfl
  · rcases List.mem_flatMap.1 hx with ⟨s, hs, hx⟩
    rcases List.mem_cons.1 hx with rfl | hx
    · exact Or.inr (h.exists_nameAt (List.mem_map_of_mem hs))
    · rcases h.ordered.defined.mem_reads hs hx with hmem | hmem
      · exact Or.inl (h.params ▸ hmem)
      · exact Or.inr (h.exists_nameAt hmem)
  · rcases h.result_mem hr with hmem | hmem
    · exact Or.inl (h.params ▸ hmem)
    · exact Or.inr (h.exists_nameAt hmem)

end SingleAssignment

/-! ## Readable questions -/

namespace Query

theorem barFree_operatorName (op : Operator) : BarFree (Encoding.operatorName op) := by
  cases op <;> decide

theorem legible_termOf {e : Expr} (h : ∀ x ∈ e.reads, BarFree x) :
    (Encoding.termOf e).sexpr.Legible := by
  induction e with
  | var x =>
      exact legible_symbol (h x List.mem_cons_self)
  | binary op left right ihl ihr =>
      refine ⟨legible_symbol (barFree_operatorName op), ihl ?_, ihr ?_, trivial⟩
      · exact fun x hx => h x (List.mem_append_left _ hx)
      · exact fun x hx => h x (List.mem_append_right _ hx)

theorem legible_equationOf {s : Assignment Expr} (h : ∀ x ∈ Encoding.namesOf s, BarFree x) :
    (Encoding.equationOf s).sexpr.Legible := by
  refine ⟨legible_word (by decide), legible_symbol (h _ List.mem_cons_self), ?_, trivial⟩
  exact legible_termOf fun x hx => h x (List.mem_cons_of_mem _ hx)

theorem allLegible_sexprs {fs : List Formula} (h : ∀ f ∈ fs, f.sexpr.Legible) :
    SExpr.AllLegible (Formula.sexprs fs) := by
  induction fs with
  | nil =>
      trivial
  | cons f rest ih =>
      exact ⟨h f List.mem_cons_self, ih fun g hg => h g (List.mem_cons_of_mem _ hg)⟩

theorem legible_and {fs : List Formula} (h : ∀ f ∈ fs, f.sexpr.Legible) :
    (Formula.and fs).sexpr.Legible := by
  match fs, h with
  | [], _ => exact legible_word (by decide)
  | [f], h => exact h f List.mem_cons_self
  | f :: g :: rest, h => exact ⟨legible_word (by decide), allLegible_sexprs h⟩

theorem legible_goalOf {body : List (Assignment Expr)} {r r' : String}
    (h : ∀ x ∈ namesMet body r r', BarFree x) : (goalOf body r r').sexpr.Legible := by
  have hmem : ∀ x ∈ body.flatMap Encoding.namesOf ++ [r, r'], BarFree x :=
    fun x hx => h x (mem_namesMet.2 hx)
  have hr : BarFree r := hmem r (by simp)
  have hr' : BarFree r' := hmem r' (by simp)
  have hbody : (Formula.and (body.map Encoding.equationOf)).sexpr.Legible := by
    refine legible_and ?_
    intro f hf
    rcases List.mem_map.1 hf with ⟨s, hs, rfl⟩
    refine legible_equationOf fun x hx => hmem x ?_
    exact List.mem_append_left _ (List.mem_flatMap.2 ⟨s, hs, hx⟩)
  have hequation : (Formula.eq (.const (Encoding.constantOf r))
      (.const (Encoding.constantOf r'))).sexpr.Legible :=
    ⟨legible_word (by decide), legible_symbol hr, legible_symbol hr', trivial⟩
  exact ⟨legible_word (by decide), ⟨legible_word (by decide), hbody, hequation, trivial⟩, trivial⟩

theorem legible_commands {names : List String} {f : Formula} (hnames : ∀ x ∈ names, BarFree x)
    (hf : f.sexpr.Legible) : ∀ e ∈ (Encoding.scriptOf names [f]).commands, e.Legible := by
  have hsort : BarFree Encoding.valueSort.name := by
    decide
  refine Script.legible_commands ?_ ?_ ?_ ?_
  · simpa [Encoding.scriptOf] using hsort
  · intro g hg
    rcases List.mem_map.1 hg with ⟨op, _, rfl⟩
    refine ⟨barFree_operatorName op, ?_, hsort⟩
    simpa [Encoding.operatorSymbol] using hsort
  · intro c hc
    rcases List.mem_map.1 hc with ⟨x, hx, rfl⟩
    exact ⟨hnames x hx, hsort⟩
  · simpa [Encoding.scriptOf] using hf

/-- No name in the question has a bar of its own. -/
def Readable (q : Query) : Prop :=
  ∃ body r r', q.script = Encoding.scriptOf (namesMet body r r') [goalOf body r r'] ∧
    ∀ x ∈ namesMet body r r', BarFree x

/-- The commands of a readable question are read back from its text. -/
theorem Readable.readAll_smtlib {q : Query} (h : q.Readable) :
    SExpr.readAll q.script.smtlib.toList = q.script.commands := by
  rcases h with ⟨body, r, r', hscript, hnames⟩
  rw [hscript]
  exact Script.readAll_smtlib (legible_commands hnames (legible_goalOf hnames))

/-- Readable questions with one text have one script. -/
theorem Readable.script_eq {q q' : Query} (h : q.Readable) (h' : q'.Readable)
    (htext : q.script.smtlib = q'.script.smtlib) : q.script = q'.script := by
  have hcommands : q.script.commands = q'.script.commands := by
    rw [← h.readAll_smtlib, ← h'.readAll_smtlib, htext]
  rcases h with ⟨body, r, r', hscript, _⟩
  rcases h' with ⟨body', s, s', hscript', _⟩
  rw [hscript, hscript'] at hcommands ⊢
  rcases commands_scriptOf_inj hcommands with ⟨_, hassertion⟩
  rcases sexpr_goalOf_inj hassertion with ⟨rfl, rfl, rfl⟩
  rfl

/-- A question is readable if the names of the functions and the parameters have no bar, since all
other names in it are generated. -/
theorem readable_build {source : Calc.Function} {target : Tac.Function} {q : Query}
    (hq : build source target = .ok q) (hsource : BarFree source.name)
    (htarget : BarFree target.name) (hparams : ∀ p ∈ source.params, BarFree p) : q.Readable := by
  rcases build_eq_ok.1 hq with ⟨hsame, _, gs, gt, r, hgs, hgt, hr, rfl⟩
  refine ⟨_, _, _, script_ofSsa gs r gt, ?_⟩
  have hcalc : BarFree (calcStem source.name) := BarFree.append (by decide) hsource
  have htac : BarFree (tacStem target.name) := BarFree.append (by decide) htarget
  -- a name is met in one of the two converted functions
  intro x hx
  have hx : (x ∈ gs.body.flatMap Encoding.namesOf ∨ x = r) ∨
      x ∈ gt.toCalc.body.flatMap Encoding.namesOf ∨ x = gt.result := by
    have hx := mem_namesMet.1 hx
    simp only [List.flatMap_append, List.mem_append, List.mem_cons, List.not_mem_nil,
      or_false] at hx
    tauto
  rcases hx with hx | hx
  · rcases (Calc.Function.converts_toSsa hgs).mem_names hr hx with hmem | ⟨k, rfl⟩
    · exact hparams x hmem
    · exact barFree_nameAt hcalc k
  · rcases (Tac.Function.converts_toSsa hgt).mem_names rfl hx with hmem | ⟨k, rfl⟩
    · exact hparams x (hsame ▸ hmem)
    · exact barFree_nameAt htac k

/-! ## Questions with one text -/

theorem constraints_ofSsa (source : Calc.Function) (r : String) (target : Tac.Function) :
    (ofSsa source r target).constraints = (source.body ++ target.toCalc.body).length := by
  rcases Encoding.assignments_spec source.body Encoding.declares_empty with ⟨hsource, hdeclares⟩
  have htarget := (Encoding.assignments_spec target.toCalc.body hdeclares).1
  simp only [ofSsa, Encoding.tacBody, Encoding.calcBody, hsource, htarget, List.length_append,
    List.length_map]

/-- The returned name is the target of the last statement, which is a generated one. -/
theorem exists_sourceReturn {source gs : Calc.Function} (h : source.toSsa = .ok gs) {r : String}
    (hr : gs.result = .var r) : ∃ k, r = nameAt (calcStem source.name) k := by
  have hconverts := Calc.Function.converts_toSsa h
  rcases Calc.Function.toSsa_eq_ok.1 h with ⟨_, c, result, _, _, rfl⟩
  cases hr
  exact hconverts.exists_nameAt (by simp [Program.targets])

/-- A script belongs to one question: it shows the equations and both returned names, and with the
first one the name of the source. -/
theorem eq_of_script_eq {source source' : Calc.Function} {target target' : Tac.Function}
    {q q' : Query} (hq : build source target = .ok q) (hq' : build source' target' = .ok q')
    (h : q.script = q'.script) : q = q' := by
  rcases build_eq_ok.1 hq with ⟨_, _, gs, gt, r, hgs, hgt, hr, rfl⟩
  rcases build_eq_ok.1 hq' with ⟨_, _, gs', gt', r', hgs', hgt', hr', rfl⟩
  have hconstraints := constraints_ofSsa gs r gt
  have hconstraints' := constraints_ofSsa gs' r' gt'
  have hname : ∀ {f g : Calc.Function}, f.toSsa = .ok g → g.name = f.name := by
    intro f g hg
    rcases Calc.Function.toSsa_eq_ok.1 hg with ⟨_, _, _, _, _, rfl⟩
    rfl
  have hassertion := congrArg (fun s => s.assertions.toList) h
  simp only [script_ofSsa, Encoding.scriptOf, List.cons.injEq, and_true] at hassertion
  rcases sexpr_goalOf_inj (congrArg Formula.sexpr hassertion) with ⟨hbody, rfl, hreturn⟩
  rcases exists_sourceReturn hgs hr with ⟨k, hk⟩
  rcases exists_sourceReturn hgs' hr' with ⟨k', hk'⟩
  -- both sources have the stem of the one returned name
  have hstem := (nameAt_inj.1 (hk.symm.trans hk')).1
  have hsource : source.name = source'.name := (String.append_right_inj _).1 hstem
  rw [hbody] at hconstraints
  have hcount := hconstraints.trans hconstraints'.symm
  simp only [ofSsa] at h hcount ⊢
  rw [Query.mk.injEq]
  exact ⟨by rw [hname hgs, hname hgs', hsource], h, rfl, hreturn, hcount⟩

/-- The text of a question is read back as its commands, if no name of the functions and no
parameter has a bar, since all other names in it are generated. Two such questions with one text are
one question, and so are two with one fingerprint, unless their texts are a collision of the
digest. -/
theorem question_of_text {source source' : Calc.Function} {target target' : Tac.Function}
    {q q' : Query} (hq : build source target = .ok q) (hq' : build source' target' = .ok q')
    (hnames : ∀ x ∈ source.name :: target.name :: source.params, BarFree x)
    (hnames' : ∀ x ∈ source'.name :: target'.name :: source'.params, BarFree x) :
    SExpr.readAll q.script.smtlib.toList = q.script.commands ∧
      (q.script.smtlib = q'.script.smtlib → q = q') ∧
      (q.fingerprint = q'.fingerprint → q = q' ∨ q.script.smtlib ≠ q'.script.smtlib ∧
        Digest.ofText q.script.smtlib = Digest.ofText q'.script.smtlib) := by
  have hreadable : ∀ {f t p}, build f t = .ok p →
      (∀ x ∈ f.name :: t.name :: f.params, BarFree x) → p.Readable := by
    intro f t p hp hbars
    rcases List.forall_mem_cons.1 hbars with ⟨hsource, hbars⟩
    rcases List.forall_mem_cons.1 hbars with ⟨htarget, hparams⟩
    exact readable_build hp hsource htarget hparams
  have htext : q.script.smtlib = q'.script.smtlib → q = q' := fun h =>
    eq_of_script_eq hq hq' ((hreadable hq hnames).script_eq (hreadable hq' hnames') h)
  refine ⟨(hreadable hq hnames).readAll_smtlib, htext, fun hdigest => ?_⟩
  by_cases h : q.script.smtlib = q'.script.smtlib
  · exact Or.inl (htext h)
  · exact Or.inr ⟨h, hdigest⟩

/-- Parameters with blanks, parentheses, a quote and a comment sign: the questions for a difference
and for the reversed one have different texts. -/
theorem question_of_text_difference :
    let source : Calc.Function :=
      { name := "f (x)", params := ["a \n", ";\"("], body := [],
        result := .binary .sub (.var "a \n") (.var ";\"(") }
    let target : Tac.Function :=
      { name := "g", params := ["a \n", ";\"("], body := [⟨"c", .binary .sub "a \n" ";\"("⟩],
        result := "c" }
    let reversed : Tac.Function :=
      { name := "g", params := ["a \n", ";\"("], body := [⟨"c", .binary .sub ";\"(" "a \n"⟩],
        result := "c" }
    ∃ q q', build source target = .ok q ∧ build source reversed = .ok q' ∧
      SExpr.readAll q.script.smtlib.toList = q.script.commands ∧
      q.script.smtlib ≠ q'.script.smtlib := by
  intro source target reversed
  have hbuild : ∃ q, build source target = .ok q :=
    exists_build (by decide) (by decide) rfl (by decide) (by decide) (by decide)
  have hbuild' : ∃ q', build source reversed = .ok q' :=
    exists_build (by decide) (by decide) rfl (by decide) (by decide) (by decide)
  rcases hbuild with ⟨q, hq⟩
  rcases hbuild' with ⟨q', hq'⟩
  have h := question_of_text hq hq' (by decide) (by decide)
  refine ⟨q, q', hq, hq', h.1, ?_⟩
  -- one question would have one answer, but only the first is refuted
  intro htext
  have hsame := h.2.1 htext
  subst hsame
  let x : Expr := .var "a \n"
  let y : Expr := .var ";\"("
  have hsource : source.unfolded = .ok (.binary .sub x y) := by cbv
  have htarget : target.toCalc.unfolded = .ok (.binary .sub x y) := by cbv
  have hreversed : reversed.toCalc.unfolded = .ok (.binary .sub y x) := by cbv
  have hrefuted := (unsat_iff_unfolded_eq hq).2 (hsource.trans htarget.symm)
  have hequal := (unsat_iff_unfolded_eq hq').1 hrefuted
  rw [hsource, hreversed] at hequal
  exact absurd hequal (by decide)

end Query

end StraightLine
