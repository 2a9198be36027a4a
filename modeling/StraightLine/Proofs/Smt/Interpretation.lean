import StraightLine.Smt.Term

/-!
# Interpretation — what terms and formulas mean

An interpretation gives every sort a carrier that is not empty, every constant an element of its
sort, and every function symbol a total function on the sorts of its arguments.

* `Signature`, `Term.WellSorted`, `Formula.WellSorted` — terms over one sort for each name of a
  constant and one symbol for each name of a function;
* `Interpretation`, `Interpretation.value`, `Interpretation.Holds` — the meaning;
* `Term.constants`, `Formula.constants` — the constants that occur;
* `Interpretation.uniform` — an interpretation with one carrier for all sorts, in which sorts can be
  forgotten: `value_uniform`.
-/

namespace StraightLine

namespace Smt

universe u

/-! ## Well-sorted terms -/

/-- What a name stands for. -/
structure Signature where
  sortOf : String → UninterpretedSort
  symbol : String → FunctionSymbol

namespace Term

mutual

def WellSorted (sig : Signature) : Term → Prop
  | const c => sig.sortOf c.name = c.sort
  | app f args =>
      sig.symbol f.name = f ∧ args.map Term.sort = f.domain ∧ AllWellSorted sig args

def AllWellSorted (sig : Signature) : List Term → Prop
  | [] => True
  | t :: rest => t.WellSorted sig ∧ AllWellSorted sig rest

end

theorem allWellSorted_iff {sig : Signature} {ts : List Term} :
    AllWellSorted sig ts ↔ ∀ t ∈ ts, t.WellSorted sig := by
  induction ts with
  | nil =>
      simp [AllWellSorted]
  | cons t rest ih =>
      simp [AllWellSorted, ih]

mutual

/-- The constants from left to right, with repeats. -/
def constants : Term → List Constant
  | const c => [c]
  | app _ args => constantsOf args

def constantsOf : List Term → List Constant
  | [] => []
  | t :: rest => t.constants ++ constantsOf rest

end

end Term

namespace Formula

mutual

def WellSorted (sig : Signature) : Formula → Prop
  | eq left right => left.WellSorted sig ∧ right.WellSorted sig ∧ left.sort = right.sort
  | not inner => inner.WellSorted sig
  | and conjuncts => AllWellSorted sig conjuncts
  | implies antecedent consequent => antecedent.WellSorted sig ∧ consequent.WellSorted sig

def AllWellSorted (sig : Signature) : List Formula → Prop
  | [] => True
  | f :: rest => f.WellSorted sig ∧ AllWellSorted sig rest

end

mutual

/-- The constants from left to right, with repeats. -/
def constants : Formula → List Constant
  | eq left right => left.constants ++ right.constants
  | not inner => inner.constants
  | and conjuncts => constantsOf conjuncts
  | implies antecedent consequent => antecedent.constants ++ consequent.constants

def constantsOf : List Formula → List Constant
  | [] => []
  | f :: rest => f.constants ++ constantsOf rest

end

theorem allWellSorted_iff {sig : Signature} {fs : List Formula} :
    AllWellSorted sig fs ↔ ∀ f ∈ fs, f.WellSorted sig := by
  induction fs with
  | nil =>
      simp [AllWellSorted]
  | cons f rest ih =>
      simp [AllWellSorted, ih]

end Formula

/-! ## Interpretations -/

/-- One element for each sort of a list. -/
def Tuple (carrier : UninterpretedSort → Type u) : List UninterpretedSort → Type u
  | [] => PUnit
  | s :: rest => carrier s × Tuple carrier rest

namespace Tuple

variable {carrier : UninterpretedSort → Type u}

/-- A value as an element of the sort `s`; well-sorted terms never need the default. -/
def read (default : (s : UninterpretedSort) → carrier s) (s : UninterpretedSort)
    (v : Σ s, carrier s) : carrier s :=
  if h : v.1 = s then h ▸ v.2 else default s

/-- The first values as elements of the given sorts. -/
def ofValues (default : (s : UninterpretedSort) → carrier s) :
    (sorts : List UninterpretedSort) → List (Σ s, carrier s) → Tuple carrier sorts
  | [], _ => ⟨⟩
  | s :: rest, [] => (default s, ofValues default rest [])
  | s :: rest, v :: vs => (read default s v, ofValues default rest vs)

/-- The elements of a tuple over one carrier for all sorts. -/
def toList {α : Type u} : {sorts : List UninterpretedSort} → Tuple (fun _ => α) sorts → List α
  | [], _ => []
  | _ :: _, (a, rest) => a :: toList rest

theorem toList_ofValues {α : Type u} (default : UninterpretedSort → α)
    (vs : List (Σ _ : UninterpretedSort, α)) :
    (ofValues default (vs.map Sigma.fst) vs).toList = vs.map Sigma.snd := by
  induction vs with
  | nil =>
      rfl
  | cons v vs ih =>
      have hread : read default v.1 v = v.2 := by
        simp [read]
      change read default v.1 v :: (ofValues default (vs.map Sigma.fst) vs).toList = _
      rw [hread, ih, List.map_cons]

end Tuple

structure Interpretation where
  carrier : UninterpretedSort → Type u
  /-- No carrier is empty. -/
  element : (s : UninterpretedSort) → carrier s
  const : (c : Constant) → carrier c.sort
  function : (f : FunctionSymbol) → Tuple carrier f.domain → carrier f.range

namespace Interpretation

/-- An element together with its sort. -/
abbrev Value (I : Interpretation.{u}) : Type u :=
  Σ s : UninterpretedSort, I.carrier s

def apply (I : Interpretation.{u}) (f : FunctionSymbol) (vs : List I.Value) : I.Value :=
  ⟨f.range, I.function f (Tuple.ofValues I.element f.domain vs)⟩

mutual

def value (I : Interpretation.{u}) : Term → I.Value
  | .const c => ⟨c.sort, I.const c⟩
  | .app f args => I.apply f (I.values args)

def values (I : Interpretation.{u}) : List Term → List I.Value
  | [] => []
  | t :: rest => I.value t :: I.values rest

end

mutual

def Holds (I : Interpretation.{u}) : Formula → Prop
  | .eq left right => I.value left = I.value right
  | .not inner => ¬ I.Holds inner
  | .and conjuncts => I.HoldsAll conjuncts
  | .implies antecedent consequent => I.Holds antecedent → I.Holds consequent

def HoldsAll (I : Interpretation.{u}) : List Formula → Prop
  | [] => True
  | f :: rest => I.Holds f ∧ I.HoldsAll rest

end

theorem holdsAll_iff {I : Interpretation.{u}} {fs : List Formula} :
    I.HoldsAll fs ↔ ∀ f ∈ fs, I.Holds f := by
  induction fs with
  | nil =>
      simp [HoldsAll]
  | cons f rest ih =>
      simp [HoldsAll, ih]

end Interpretation

/-! ## One carrier for all sorts -/

namespace Interpretation

variable {α : Type u}

/-- Sorts make no difference to what constants and functions are. -/
abbrev uniform (element : α) (const : Constant → α) (function : FunctionSymbol → List α → α) :
    Interpretation.{u} where
  carrier := fun _ => α
  element := fun _ => element
  const := const
  function := fun f args => function f args.toList

mutual

/-- The value of a term without regard to sorts. -/
def plainValue (const : Constant → α) (function : FunctionSymbol → List α → α) : Term → α
  | .const c => const c
  | .app f args => function f (plainValues const function args)

def plainValues (const : Constant → α) (function : FunctionSymbol → List α → α) :
    List Term → List α
  | [] => []
  | t :: rest => plainValue const function t :: plainValues const function rest

end

section Uniform

variable {element : α} {const : Constant → α} {function : FunctionSymbol → List α → α}

theorem plainValues_eq_map (ts : List Term) :
    plainValues const function ts = ts.map (plainValue const function) := by
  induction ts with
  | nil =>
      rfl
  | cons t rest ih =>
      simp [plainValues, ih]

theorem apply_uniform {f : FunctionSymbol} {vs : List (Σ _ : UninterpretedSort, α)}
    (h : vs.map Sigma.fst = f.domain) :
    (uniform element const function).apply f vs = ⟨f.range, function f (vs.map Sigma.snd)⟩ := by
  have hargs := Tuple.toList_ofValues (fun _ => element) vs
  rw [h] at hargs
  simp [apply, hargs]

mutual

theorem value_uniform {sig : Signature} : ∀ {t : Term}, t.WellSorted sig →
    (uniform element const function).value t = ⟨t.sort, plainValue const function t⟩
  | .const _, _ => rfl
  | .app f args, h => by
      -- the arguments have the sorts of the symbol, so no value is replaced by the default
      rcases h with ⟨_, hsorts, hargs⟩
      have hvalues := values_uniform hargs
      have hfst : ((uniform element const function).values args).map Sigma.fst = f.domain := by
        rw [hvalues, ← hsorts]
        simp
      have hsnd : ((uniform element const function).values args).map Sigma.snd =
          plainValues const function args := by
        rw [hvalues, plainValues_eq_map]
        simp
      simp only [value, plainValue, Term.sort]
      rw [apply_uniform hfst, hsnd]

theorem values_uniform {sig : Signature} : ∀ {ts : List Term}, Term.AllWellSorted sig ts →
    (uniform element const function).values ts =
      ts.map fun t => ⟨t.sort, plainValue const function t⟩
  | [], _ => rfl
  | t :: rest, h => by
      simp [values, value_uniform h.1, values_uniform h.2]

end

end Uniform

end Interpretation

end Smt

end StraightLine
