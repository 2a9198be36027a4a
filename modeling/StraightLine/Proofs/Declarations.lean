import StraightLine.Proofs.Fingerprint

/-!
# Declarations — when a question declares every name once

Functions and constants of a script share one namespace. The constants of a question are named by
the generator, except for the parameters that are read, and these keep their own names. A parameter
may therefore be called like an operator's function. It is then declared a second time, and this is
the only way in which a name is declared twice.

* `Calc.Function.inputs` — the names that a function reads before it assigns them;
* `Script.declaredNames`, `Formula.symbols` — what a script declares, and what an assertion uses;
* `SingleAssignment.Reads` — a converted function reads the inputs under their own names;
* `Query.nodup_declaredNames_iff` — which questions declare every name once;
* `Query.declaredNames_operator_parameter` — a question that declares a name twice.
-/

namespace StraightLine

open Smt SingleAssignment FreshNames

namespace Calc

/-- What statements read before they assign it, if `after` is read at their end. -/
def readsBefore (after : List String) : List (Assignment Expr) → List String
  | [] => after
  | s :: rest => s.value.reads ++ (readsBefore after rest).filter (· ≠ s.target)

/-- The names that a function reads before it assigns them. -/
def Function.inputs (f : Function) : List String :=
  readsBefore f.result.reads f.body

theorem mem_readsBefore_cons {after : List String} {s : Assignment Expr}
    {rest : List (Assignment Expr)} {x : String} :
    x ∈ readsBefore after (s :: rest) ↔
      x ∈ s.value.reads ∨ x ∈ readsBefore after rest ∧ x ≠ s.target := by
  simp [readsBefore]

end Calc

/-! ## Single assignment -/

namespace SingleAssignment

section Bodies

variable {function : String} {table : Renaming} {fresh : FreshNames}
  {stmts : List (Assignment Expr)} {c : Converted Expr} {after : List String}

/-- Apart from generated names, converted statements and what follows them read the names that stand
for what is read before it is assigned. -/
theorem mem_reads_body (h : body Expr.rename function table fresh stmts = .ok c) {x : String}
    (hx : ∀ k, x ≠ nameAt fresh.stem k) :
    ((∃ s ∈ c.body, x ∈ s.value.reads) ∨ ∃ y ∈ after, c.table[y]? = some x) ↔
      ∃ y ∈ Calc.readsBefore after stmts, table[y]? = some x := by
  induction stmts generalizing table fresh c with
  | nil =>
      cases h
      simp [Calc.readsBefore]
  | cons s rest ih =>
      rcases body_cons.1 h with ⟨value, later, hvalue, hlater, rfl⟩
      have hvalue : x ∈ value.reads ↔ ∃ y ∈ s.value.reads, table[y]? = some x := by
        simp only [mem_reads_rename hvalue, Renaming.lookup_eq_ok]
      -- after the assignment its target stands for a generated name
      have hinsert : ∀ y : String, (table.insert s.target fresh.nextName.1)[y]? = some x ↔
          y ≠ s.target ∧ table[y]? = some x := by
        intro y
        rw [Std.HashMap.getElem?_insert]
        by_cases hy : s.target = y
        · simp [hy, nextName, Ne.symm (hx fresh.issued)]
        · simp [hy, Ne.symm hy]
      simp only [List.mem_cons, or_and_right, exists_or, exists_eq_left, or_assoc, hvalue,
        ih hlater hx, hinsert, Calc.mem_readsBefore_cons, and_assoc]

theorem covers_readsBefore (h : body Expr.rename function table fresh stmts = .ok c)
    (hafter : Covers c.table after) : Covers table (Calc.readsBefore after stmts) := by
  induction stmts generalizing table fresh c with
  | nil =>
      cases h
      exact hafter
  | cons s rest ih =>
      rcases body_cons.1 h with ⟨value, later, hvalue, hlater, rfl⟩
      intro x hx
      rcases Calc.mem_readsBefore_cons.1 hx with hx | ⟨hx, hne⟩
      · rcases exists_of_rename hvalue x hx with ⟨y, hy⟩
        exact ⟨y, Renaming.lookup_eq_ok.1 hy⟩
      · rcases ih hlater hafter x hx with ⟨y, hy⟩
        rw [Std.HashMap.getElem?_insert, if_neg (by simpa using Ne.symm hne)] at hy
        exact ⟨y, hy⟩

end Bodies

/-- Inputs are parameters, and besides generated names a converted function reads the inputs. -/
structure Reads (stem : String) (f g : Calc.Function) : Prop where
  inputs : ∀ x ∈ f.inputs, x ∈ f.params
  mem_iff : ∀ x, (∀ k, x ≠ nameAt stem k) →
    ((∃ s ∈ g.body, x ∈ s.value.reads) ∨ x ∈ g.result.reads ↔ x ∈ f.inputs)

/-- What a function reads first is a parameter if the conversion succeeds, and parameters keep their
names. -/
theorem reads_converted {f : Calc.Function} {fresh : FreshNames} {c : Converted Expr}
    (more : List (Assignment Expr)) (result : Expr)
    (hbody : body Expr.rename f.name (Renaming.ofParams f.params) fresh f.body = .ok c)
    (hcovers : Covers c.table f.result.reads)
    (hend : ∀ x, (∀ k, x ≠ nameAt fresh.stem k) →
      ((∃ s ∈ more, x ∈ s.value.reads) ∨ x ∈ result.reads ↔
        ∃ y ∈ f.result.reads, c.table[y]? = some x)) :
    Reads fresh.stem f { f with body := c.body ++ more, result } := by
  have hinputs : ∀ x ∈ f.inputs, x ∈ f.params := by
    intro x hx
    rcases covers_readsBefore hbody hcovers x hx with ⟨y, hy⟩
    rw [Renaming.getElem?_ofParams] at hy
    split at hy
    · assumption
    · cases hy
  refine ⟨hinputs, ?_⟩
  intro x hx
  simp only [List.mem_append, or_and_right, exists_or, or_assoc, hend x hx]
  rw [mem_reads_body hbody hx]
  constructor
  · rintro ⟨y, hy, hxy⟩
    rw [Renaming.getElem?_ofParams, if_pos (hinputs y hy)] at hxy
    cases hxy
    exact hy
  · intro hmem
    exact ⟨x, hmem, by rw [Renaming.getElem?_ofParams, if_pos (hinputs x hmem)]⟩

end SingleAssignment

theorem Calc.Function.reads_toSsa {f g : Calc.Function} (h : f.toSsa = .ok g) :
    Reads (calcStem f.name) f g := by
  rcases toSsa_eq_ok.1 h with ⟨hcheck, c, result, hc, hresult, rfl⟩
  have hparams : ∀ p ∈ f.params, ¬ Numbered (calcStem f.name) p :=
    fun p hp => checkUnowned_ofStem.1 hcheck p (List.mem_append_left _ hp)
  rcases body_ordered hc (current_ofParams hparams) with ⟨_, _, hfresh, _⟩
  refine reads_converted _ _ hc ?_ ?_
  · intro x hx
    rcases exists_of_rename hresult x hx with ⟨y, hy⟩
    exact ⟨y, Renaming.lookup_eq_ok.1 hy⟩
  · -- the returned name is generated
    intro x hx
    have hlast : x ≠ c.fresh.nextName.1 := by
      rw [hfresh]
      exact hx _
    simp only [List.mem_singleton, exists_eq_left, Expr.reads, hlast, or_false,
      mem_reads_rename hresult, Renaming.lookup_eq_ok]

theorem Tac.Function.reads_toSsa {f g : Tac.Function} (h : f.toSsa = .ok g) :
    Reads (tacStem f.name) f.toCalc g.toCalc := by
  rcases toSsa_eq_ok.1 h with ⟨_, c, result, hc, hresult, rfl⟩
  have hbody : body Expr.rename f.toCalc.name (Renaming.ofParams f.toCalc.params)
      (FreshNames.ofStem (tacStem f.name)) f.toCalc.body = .ok c.toCalc := by
    simp only [Tac.Function.toCalc, Program.map, body_toCalc, hc]
    rfl
  have hlookup : c.toCalc.table[f.result]? = some result := Renaming.lookup_eq_ok.1 hresult
  have hreads := reads_converted [] (.var result) hbody ?_ ?_
  · rw [List.append_nil] at hreads
    exact hreads
  · intro x hx
    rw [List.mem_singleton.1 hx]
    exact ⟨result, hlookup⟩
  · intro x _
    simp [Expr.reads, Tac.Function.toCalc, Program.map, hlookup, eq_comm]

/-! ## Declarations -/

namespace Smt

/-- The names that a script declares, the functions before the constants. -/
def Script.declaredNames (s : Script) : List String :=
  s.functions.toList.map FunctionSymbol.name ++ s.constants.toList.map Constant.name

namespace Term

mutual

/-- The names of functions and constants from left to right, with repeats. -/
def symbols : Term → List String
  | const c => [c.name]
  | app f args => f.name :: symbolsOf args

def symbolsOf : List Term → List String
  | [] => []
  | t :: rest => t.symbols ++ symbolsOf rest

end

end Term

namespace Formula

mutual

/-- The names of functions and constants from left to right, with repeats. -/
def symbols : Formula → List String
  | eq left right => left.symbols ++ right.symbols
  | not inner => inner.symbols
  | and conjuncts => symbolsOf conjuncts
  | implies antecedent consequent => antecedent.symbols ++ consequent.symbols

def symbolsOf : List Formula → List String
  | [] => []
  | f :: rest => f.symbols ++ symbolsOf rest

end

theorem mem_symbolsOf {fs : List Formula} {x : String} :
    x ∈ symbolsOf fs ↔ ∃ f ∈ fs, x ∈ f.symbols := by
  induction fs with
  | nil =>
      simp [symbolsOf]
  | cons f rest ih =>
      simp [symbolsOf, ih]

end Formula

end Smt

namespace Encoding

/-- Operators are told apart from generated names by their first letter. -/
theorem operatorName_ne_nameAt (op : Operator) {stem : String}
    (hstem : stem.toList.head? = some '_') (k : Nat) : operatorName op ≠ nameAt stem k := by
  intro h
  have hhead := congrArg (fun x : String => x.toList.head?) h
  rw [show (nameAt stem k).toList.head? = some '_' by
    rw [toList_nameAt, List.head?_append, hstem]
    rfl] at hhead
  revert hhead
  cases op <;> decide

theorem nodup_meetAll {names : List String} (h : names.Nodup) (xs : List String) :
    (meetAll names xs).Nodup := by
  induction xs generalizing names with
  | nil =>
      exact h
  | cons x xs ih =>
      refine ih ?_
      unfold meet
      split
      · exact h
      · next hx =>
          rw [List.nodup_append]
          refine ⟨h, List.nodup_singleton x, ?_⟩
          rintro y hy z hz rfl
          exact hx (List.mem_singleton.1 hz ▸ hy)

theorem mem_symbols_termOf {e : Expr} {x : String} (h : x ∈ (termOf e).symbols) :
    (∃ op, x = operatorName op) ∨ x ∈ e.reads := by
  induction e with
  | var name =>
      exact Or.inr h
  | binary op left right ihl ihr =>
      simp only [termOf, Term.symbols, Term.symbolsOf, List.mem_cons, List.append_nil,
        List.mem_append] at h
      rcases h with rfl | h | h
      · exact Or.inl ⟨op, rfl⟩
      · exact (ihl h).imp_right fun h => List.mem_append_left _ h
      · exact (ihr h).imp_right fun h => List.mem_append_right _ h

theorem declaredNames_scriptOf (names : List String) (assertions : List Formula) :
    (scriptOf names assertions).declaredNames = Operator.all.map operatorName ++ names := by
  simp [Script.declaredNames, scriptOf, operatorSymbol, constantOf, Function.comp_def]

/-- The functions of the operators are declared under different names. -/
theorem nodup_operatorNames : (Operator.all.map operatorName).Nodup := by
  decide

end Encoding

namespace Query

open Encoding

section Scripts

variable {body : List (Assignment Expr)} {r r' : String}

/-- Names are declared once unless a constant is called like an operator's function. -/
theorem nodup_declaredNames_scriptOf {assertions : List Formula} :
    (scriptOf (namesMet body r r') assertions).declaredNames.Nodup ↔
      ∀ op, operatorName op ∉ namesMet body r r' := by
  rw [declaredNames_scriptOf, List.nodup_append]
  constructor
  · rintro ⟨_, _, hapart⟩ op hop
    exact hapart _ (List.mem_map_of_mem (Operator.mem_all op)) _ hop rfl
  · intro hapart
    refine ⟨nodup_operatorNames, nodup_meetAll List.nodup_nil _, ?_⟩
    rintro x hx y hy rfl
    rcases List.mem_map.1 hx with ⟨op, _, rfl⟩
    exact hapart op hy

/-- Everything that the assertion uses is declared. -/
theorem mem_declaredNames_of_symbols {assertions : List Formula} {x : String}
    (h : x ∈ (goalOf body r r').symbols) :
    x ∈ (scriptOf (namesMet body r r') assertions).declaredNames := by
  have hused : (∃ op, x = operatorName op) ∨ x ∈ body.flatMap namesOf ++ [r, r'] := by
    rcases List.mem_append.1 h with h | h
    · rcases Formula.mem_symbolsOf.1 h with ⟨f, hf, hx⟩
      rcases List.mem_map.1 hf with ⟨s, hs, rfl⟩
      rcases List.mem_cons.1 hx with rfl | hx
      · exact Or.inr (List.mem_append_left _ (List.mem_flatMap.2 ⟨s, hs, List.mem_cons_self⟩))
      · refine (mem_symbols_termOf hx).imp_right fun hx => List.mem_append_left _ ?_
        exact List.mem_flatMap.2 ⟨s, hs, List.mem_cons_of_mem _ hx⟩
    · exact Or.inr (List.mem_append_right _ h)
  rw [declaredNames_scriptOf, List.mem_append]
  rcases hused with ⟨op, rfl⟩ | hx
  · exact Or.inl (List.mem_map_of_mem (Operator.mem_all op))
  · exact Or.inr (mem_namesMet.2 hx)

end Scripts

/-- Apart from generated names, the constants for a converted function are its inputs. -/
theorem mem_namesOf_iff {stem : String} {f g : Calc.Function} (h : Converts stem f g)
    (hreads : Reads stem f g) {r : String} (hr : g.result = .var r) {x : String}
    (hx : ∀ k, x ≠ nameAt stem k) : x ∈ g.body.flatMap namesOf ∨ x = r ↔ x ∈ f.inputs := by
  have htarget : ∀ s ∈ g.body, x ≠ s.target := by
    rintro s hs rfl
    rcases h.exists_nameAt (List.mem_map_of_mem hs) with ⟨k, hk⟩
    exact hx k hk
  rw [← hreads.mem_iff x hx, hr, Expr.reads, List.mem_singleton, List.mem_flatMap]
  refine or_congr_left (exists_congr fun s => and_congr_right fun hs => ?_)
  rw [namesOf, List.mem_cons, or_iff_right (htarget s hs)]

/-- A question declares its names once exactly if no operator's function is called like an input. -/
theorem nodup_declaredNames_build {source : Calc.Function} {target : Tac.Function} {q : Query}
    (h : build source target = .ok q) : q.script.declaredNames.Nodup ↔
      ∀ op, operatorName op ∉ source.inputs ∧ operatorName op ∉ target.toCalc.inputs := by
  rcases build_eq_ok.1 h with ⟨_, _, gs, gt, r, hgs, hgt, hr, rfl⟩
  rw [script_ofSsa, nodup_declaredNames_scriptOf]
  refine forall_congr' fun op => ?_
  have hcalc : ∀ k, operatorName op ≠ nameAt (calcStem source.name) k :=
    operatorName_ne_nameAt op (by simp [calcStem])
  have htac : ∀ k, operatorName op ≠ nameAt (tacStem target.name) k :=
    operatorName_ne_nameAt op (by simp [tacStem])
  have hs := Calc.Function.converts_toSsa hgs
  have ht := Tac.Function.converts_toSsa hgt
  rw [← mem_namesOf_iff hs (Calc.Function.reads_toSsa hgs) hr hcalc,
    ← mem_namesOf_iff ht (Tac.Function.reads_toSsa hgt) rfl htac, mem_namesMet]
  simp only [List.flatMap_append, List.mem_append, List.mem_cons, List.not_mem_nil, or_false]
  tauto

/-- In a question every name is declared once exactly if no input of either function, which is one
of their parameters, is called like an operator's function. Then each name in the assertion has one
declaration. -/
theorem nodup_declaredNames_iff {source : Calc.Function} {target : Tac.Function} {q : Query}
    (h : build source target = .ok q) :
    (q.script.declaredNames.Nodup ↔
      ∀ op, operatorName op ∉ source.inputs ∧ operatorName op ∉ target.toCalc.inputs) ∧
    (∀ x, x ∈ source.inputs ∨ x ∈ target.toCalc.inputs → x ∈ source.params) ∧
    (q.script.declaredNames.Nodup →
      ∀ f ∈ q.script.assertions, ∀ x ∈ f.symbols, q.script.declaredNames.count x = 1) := by
  refine ⟨nodup_declaredNames_build h, ?_, ?_⟩
  · rcases build_eq_ok.1 h with ⟨hparams, _, gs, gt, _, hgs, hgt, _⟩
    rintro x (hx | hx)
    · exact (Calc.Function.reads_toSsa hgs).inputs x hx
    · rw [hparams]
      exact (Tac.Function.reads_toSsa hgt).inputs x hx
  · intro hnodup f hf x hx
    rw [hnodup.count, if_pos]
    rcases build_eq_ok.1 h with ⟨_, _, gs, gt, r, _, _, _, rfl⟩
    rw [script_ofSsa] at hf ⊢
    have hf : f = goalOf (gs.body ++ gt.toCalc.body) r gt.result := by
      simpa [scriptOf] using hf
    rw [hf] at hx
    exact mem_declaredNames_of_symbols hx

theorem nodup_declaredNames_iff_sample :
    ∃ q, build Calc.sample Tac.sample = .ok q ∧ q.script.declaredNames.Nodup := by
  rcases exists_build_sample with ⟨q, hbuild⟩
  refine ⟨q, hbuild, (nodup_declaredNames_iff hbuild).1.2 ?_⟩
  intro op
  cases op <;> decide

/-- A sum of two parameters, the first of which is called like the function for sums, has code whose
question declares this name twice. -/
theorem declaredNames_operator_parameter :
    let source : Calc.Function :=
      { name := "f", params := ["f_add", "b"], body := [],
        result := .binary .add (.var "f_add") (.var "b") }
    let target : Tac.Function :=
      { name := "f", params := ["f_add", "b"], body := [⟨"z", .binary .add "f_add" "b"⟩],
        result := "z" }
    ∃ q, build source target = .ok q ∧ ¬ q.script.declaredNames.Nodup := by
  intro source target
  have hexists : ∃ q, build source target = .ok q :=
    exists_build (by decide) (by decide) rfl (by decide) (by decide) (by decide)
  rcases hexists with ⟨q, hbuild⟩
  refine ⟨q, hbuild, ?_⟩
  rw [nodup_declaredNames_build hbuild]
  intro h
  exact absurd (h .add).1 (by decide)

end Query

end StraightLine
