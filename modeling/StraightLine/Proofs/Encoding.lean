import StraightLine.Encoding
import StraightLine.Proofs.Evaluation
import StraightLine.Proofs.Smt.Interpretation

/-!
# Encoding — which constants a script declares, and what is built over them

A name that is met stands for one constant from then on, and the script declares the constants in
the order in which their names were met first.

* `Encoding.termOf`, `Encoding.equationOf` — the term of a tree and the equation of a statement;
* `Encoding.meet`, `Encoding.meetAll` — the names that have been met;
* `Encoding.Declares` — the table and the script agree on them;
* `Encoding.assignments_spec` — the equations of a body, and the names met after it.
-/

namespace StraightLine

open Smt

namespace Encoding

/-! ## What is built -/

def termOf : Expr → Term
  | .var name => .const (constantOf name)
  | .binary op left right => .app (operatorSymbol op) [termOf left, termOf right]

def equationOf (s : Assignment Expr) : Formula :=
  .eq (.const (constantOf s.target)) (termOf s.value)

/-- The names of a statement in the order in which they are met. -/
def namesOf (s : Assignment Expr) : List String :=
  s.target :: s.value.reads

theorem constants_termOf (e : Expr) : (termOf e).constants = e.reads.map constantOf := by
  induction e with
  | var name =>
      rfl
  | binary op left right ihl ihr =>
      simp [termOf, Term.constants, Term.constantsOf, Expr.reads, ihl, ihr]

theorem constants_equationOf (s : Assignment Expr) :
    (equationOf s).constants = (namesOf s).map constantOf := by
  simp [equationOf, Formula.constants, Term.constants, constants_termOf, namesOf]

/-! ## Names that have been met -/

def meet (names : List String) (x : String) : List String :=
  if x ∈ names then names else names ++ [x]

def meetAll (names : List String) (xs : List String) : List String :=
  xs.foldl meet names

theorem meetAll_cons (names : List String) (x : String) (xs : List String) :
    meetAll names (x :: xs) = meetAll (meet names x) xs :=
  rfl

theorem meetAll_append (names xs ys : List String) :
    meetAll names (xs ++ ys) = meetAll (meetAll names xs) ys :=
  List.foldl_append

theorem mem_meet {names : List String} {x y : String} : y ∈ meet names x ↔ y ∈ names ∨ y = x := by
  unfold meet
  split
  · next hx =>
      constructor
      · exact Or.inl
      · rintro (hy | rfl)
        · exact hy
        · exact hx
  · simp

theorem mem_meetAll {names xs : List String} {y : String} :
    y ∈ meetAll names xs ↔ y ∈ names ∨ y ∈ xs := by
  induction xs generalizing names with
  | nil =>
      simp [meetAll]
  | cons x xs ih =>
      rw [meetAll_cons, ih, mem_meet, List.mem_cons, or_assoc]

/-! ## The table and the script -/

/-- The sort, the four operators, a constant for each name, and assertions. -/
def scriptOf (names : List String) (assertions : List Formula) : Script :=
  { sorts := #[valueSort]
    functions := (Operator.all.map operatorSymbol).toArray
    constants := (names.map constantOf).toArray
    assertions := assertions.toArray }

/-- The names met so far are those of the table and those that are declared. -/
structure Declares (enc : Encoding) (names : List String) (assertions : List Formula) : Prop where
  table : ∀ x : String, enc.constants[x]? = if x ∈ names then some (constantOf x) else none
  script : enc.script = scriptOf names assertions

/-- Declaring the constant of a name is meeting the name. -/
theorem declareConstant_scriptOf (names : List String) (assertions : List Formula) (x : String) :
    (scriptOf names assertions).declareConstant (constantOf x) =
      scriptOf (meet names x) assertions := by
  have hdeclared : constantOf x ∈ (scriptOf names assertions).constants ↔ x ∈ names := by
    simp [scriptOf, constantOf]
  by_cases hx : x ∈ names
  · rw [Script.declareConstant_of_mem (hdeclared.2 hx), meet, if_pos hx]
  · rw [Script.declareConstant_of_not_mem (mt hdeclared.1 hx), meet, if_neg hx]
    simp [scriptOf]

theorem declares_empty : Declares Encoding.empty [] [] where
  table := by
    intro x
    simp [Encoding.empty]
  script := rfl

section Specs

variable {enc : Encoding} {names : List String} {assertions : List Formula}

theorem constant_spec (h : enc.Declares names assertions) (x : String) :
    (enc.constant x).1 = constantOf x ∧ (enc.constant x).2.Declares (meet names x) assertions := by
  have htable := h.table x
  unfold constant
  split at htable
  · next hx =>
      rw [htable, meet, if_pos hx]
      exact ⟨rfl, h⟩
  · rw [htable]
    refine ⟨rfl, ⟨?_, ?_⟩⟩
    · intro y
      simp only [Std.HashMap.getElem?_insert, h.table y, mem_meet]
      by_cases hy : x = y
      · simp [hy]
      · simp [hy, Ne.symm hy]
    · exact h.script ▸ declareConstant_scriptOf names assertions x

theorem expr_spec (e : Expr) (h : enc.Declares names assertions) :
    (enc.expr e).1 = termOf e ∧ (enc.expr e).2.Declares (meetAll names e.reads) assertions := by
  induction e generalizing enc names with
  | var name =>
      rcases constant_spec h name with ⟨hc, hdeclares⟩
      exact ⟨congrArg Term.const hc, hdeclares⟩
  | binary op left right ihl ihr =>
      rcases ihl h with ⟨hl, hleft⟩
      rcases ihr hleft with ⟨hr, hright⟩
      refine ⟨?_, ?_⟩
      · simp only [expr, hl, hr, termOf]
      · simpa only [expr, Expr.reads, meetAll_append] using hright

theorem assignment_spec (s : Assignment Expr) (h : enc.Declares names assertions) :
    (enc.assignment s).1 = equationOf s ∧
      (enc.assignment s).2.Declares (meetAll names (namesOf s)) assertions := by
  rcases constant_spec h s.target with ⟨ht, htarget⟩
  rcases expr_spec s.value htarget with ⟨hv, hvalue⟩
  refine ⟨?_, hvalue⟩
  simp only [assignment, ht, hv, equationOf]

theorem assignments_spec (body : List (Assignment Expr)) (h : enc.Declares names assertions) :
    (enc.assignments body).1 = body.map equationOf ∧
      (enc.assignments body).2.Declares (meetAll names (body.flatMap namesOf)) assertions := by
  induction body generalizing enc names with
  | nil =>
      exact ⟨rfl, h⟩
  | cons s rest ih =>
      rcases assignment_spec s h with ⟨hs, hdeclares⟩
      rcases ih hdeclares with ⟨hrest, hlater⟩
      refine ⟨?_, ?_⟩
      · simp only [assignments, hs, hrest, List.map_cons]
      · simpa only [assignments, List.flatMap_cons, meetAll_append] using hlater

theorem assert_spec (f : Formula) (h : enc.Declares names assertions) :
    (enc.assert f).Declares names (assertions ++ [f]) where
  table := h.table
  script := by
    simp [assert, Script.assert, h.script, scriptOf]

end Specs

/-! ## What terms mean -/

section Meaning

variable {I : Interpretation.{0}}

/-- The operators of an interpretation, on values of any sort. -/
def operatorsOf (I : Interpretation.{0}) (op : Operator) (a b : I.Value) : I.Value :=
  I.apply (operatorSymbol op) [a, b]

/-- The value that an interpretation gives to a name. -/
def valueOf (I : Interpretation.{0}) (x : String) : I.Value :=
  I.value (.const (constantOf x))

theorem value_termOf (e : Expr) :
    I.value (termOf e) = e.valueIn (operatorsOf I) (valueOf I) := by
  induction e with
  | var name =>
      rfl
  | binary op left right ihl ihr =>
      simp only [termOf, Interpretation.value, Interpretation.values, ihl, ihr, Expr.valueIn,
        operatorsOf]

/-- The operator that a symbol stands for. -/
def operatorAt (f : FunctionSymbol) : Option Operator :=
  Operator.all.find? fun op => operatorName op == f.name

theorem operatorAt_operatorSymbol (op : Operator) : operatorAt (operatorSymbol op) = some op := by
  cases op <;> decide

/-- What a function symbol does to values, given what the operators do. -/
def applyOf {α : Type} (ops : Operator → α → α → α) (default : α) (f : FunctionSymbol) :
    List α → α
  | [a, b] => ((operatorAt f).map fun op => ops op a b).getD default
  | _ => default

/-- Values for the names and operators on one carrier as an interpretation. -/
abbrev interpretationOf {α : Type} (ops : Operator → α → α → α) (value : String → α) :
    Interpretation.{0} :=
  .uniform (value "") (fun c => value c.name) (applyOf ops (value ""))

/-- Constants of the sort of values, and the four operators. -/
def signature : Signature where
  sortOf := fun _ => valueSort
  symbol := fun name =>
    ((Operator.all.find? fun op => operatorName op == name).map operatorSymbol).getD
      (operatorSymbol .add)

theorem sort_termOf (e : Expr) : (termOf e).sort = valueSort := by
  cases e <;> rfl

theorem wellSorted_termOf (e : Expr) : (termOf e).WellSorted signature := by
  induction e with
  | var name =>
      rfl
  | binary op left right ihl ihr =>
      refine ⟨?_, ?_, ihl, ihr, trivial⟩
      · cases op <;> decide
      · simp [sort_termOf, operatorSymbol]

theorem plainValue_termOf {α : Type} {ops : Operator → α → α → α} {value : String → α} (e : Expr) :
    Interpretation.plainValue (fun c => value c.name) (applyOf ops (value "")) (termOf e) =
      e.valueIn ops value := by
  induction e with
  | var name =>
      rfl
  | binary op left right ihl ihr =>
      simp [termOf, Interpretation.plainValue, Interpretation.plainValues, ihl, ihr, applyOf,
        operatorAt_operatorSymbol, Expr.valueIn]

theorem value_interpretationOf {α : Type} (ops : Operator → α → α → α) (value : String → α)
    (e : Expr) : (interpretationOf ops value).value (termOf e) =
      ⟨valueSort, e.valueIn ops value⟩ := by
  calc
    (interpretationOf ops value).value (termOf e)
        = ⟨(termOf e).sort, Interpretation.plainValue (fun c => value c.name)
            (applyOf ops (value "")) (termOf e)⟩ :=
          Interpretation.value_uniform (wellSorted_termOf e)
    _ = ⟨valueSort, e.valueIn ops value⟩ := by
          rw [sort_termOf, plainValue_termOf]

/-- The equation of a statement says that its target has the value of its right-hand side. -/
theorem holds_equationOf {α : Type} {ops : Operator → α → α → α} {value : String → α}
    {s : Assignment Expr} : (interpretationOf ops value).Holds (equationOf s) ↔
      value s.target = s.value.valueIn ops value := by
  change (interpretationOf ops value).value (termOf (.var s.target)) = _ ↔ _
  rw [value_interpretationOf, value_interpretationOf]
  simp [Expr.valueIn]

end Meaning

end Encoding

end StraightLine
