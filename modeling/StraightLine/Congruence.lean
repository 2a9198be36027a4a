import StraightLine.Congruence.Closure
import StraightLine.Smt.Model
import StraightLine.Smt.Script

/-!
# Congruence — deciding conjunctions of equations

Assertions are split into equations and disequations by pushing negations inward, as long as that
leaves a conjunction. The equations are closed under congruence; a disequation inside one class
is a contradiction, and otherwise every class is one element of a model.

* `Literals`, `Literals.collect` — the equations and disequations of a formula;
* `Congruence.modelOf` — the classes of a graph as a model;
* `Congruence.decide` — the answer.
-/

namespace StraightLine

open Smt

namespace Congruence

/-! ## Literals -/

structure Literals where
  equalities : Array (Term × Term) := #[]
  disequalities : Array (Term × Term) := #[]
  /-- A conjunction of nothing was denied. -/
  contradiction : Bool := false

namespace Literals

def addEquality (l : Literals) (a b : Term) : Literals :=
  { l with equalities := l.equalities.push (a, b) }

def addDisequality (l : Literals) (a b : Term) : Literals :=
  { l with disequalities := l.disequalities.push (a, b) }

mutual

/-- Adds what a formula says if it holds (`positive`) or if it does not. A part that is a
disjunction is the error. -/
def collect (l : Literals) (positive : Bool) : Formula → Except Formula Literals
  | .eq a b => .ok (if positive then l.addEquality a b else l.addDisequality a b)
  | .not inner => l.collect (!positive) inner
  | .and conjuncts =>
      match positive, conjuncts with
      | true, conjuncts => l.collectAll conjuncts
      | false, [] => .ok { l with contradiction := true }
      | false, [single] => l.collect false single
      -- two or more conjuncts that do not all hold are a disjunction
      | false, conjuncts => .error (.not (.and conjuncts))
  | .implies antecedent consequent =>
      if positive then .error (.implies antecedent consequent)
      else
        match l.collect true antecedent with
        | .error shape => .error shape
        | .ok l => l.collect false consequent

/-- Adds what a list of formulas says if all of them hold. -/
def collectAll (l : Literals) : List Formula → Except Formula Literals
  | [] => .ok l
  | f :: rest =>
      match l.collect true f with
      | .error shape => .error shape
      | .ok l => l.collectAll rest

end

end Literals

/-! ## Models -/

/-- Numbers of classes by their roots. -/
abbrev Numbering : Type :=
  Std.HashMap Nat Nat

/-- The name of the element with a number. -/
def elementName (sort : UninterpretedSort) (number : Nat) : String :=
  sort.name ++ "!val!" ++ toString number

/-- Gives every class a number when its first node is met, and each constant the element of its
class. `id` is the number of the first node in the list. -/
def modelFrom (id : Nat) (classes : UnionFind) (numbering : Numbering) (model : Model) :
    List Node → Model
  | [] => model
  | node :: rest =>
      let (root, classes) := classes.find id
      let (number, numbering) :=
        match numbering[root]? with
        | some number => (number, numbering)
        | none =>
            let number := numbering.size
            (number, numbering.insert root number)
      let model :=
        match node with
        | .const c => model.insert c.name (elementName c.sort number)
        | .app .. => model
      modelFrom (id + 1) classes numbering model rest

/-- One element for each class, in the order of the first nodes. -/
def modelOf (g : TermGraph) : Model :=
  modelFrom 0 g.classes ∅ .empty g.nodes.toList

/-! ## Decision -/

/-- Whether some pair lies in one class. -/
def anyJoined (classes : UnionFind) : List (Nat × Nat) → Bool
  | [] => false
  | (a, b) :: rest =>
      -- looking for roots redirects elements, so the changed classes are passed on
      let (ra, classes) := classes.find a
      let (rb, classes) := classes.find b
      ra == rb || anyJoined classes rest

/-- Decides the conjunction of literals. -/
def decideLiterals (l : Literals) : CheckResult :=
  if l.contradiction then .unsat
  else
    let (equal, g) := TermGraph.empty.internPairs l.equalities.toList
    let (different, g) := g.internPairs l.disequalities.toList
    let g := (g.unionPairs equal).close
    if anyJoined g.classes different then .unsat else .sat (modelOf g)

/-- Decides the conjunction of assertions, unless some part of them is a disjunction. -/
def decide (assertions : List Formula) : CheckResult :=
  match Literals.collectAll {} assertions with
  | .error shape => .unknown ("not a conjunction of literals: " ++ shape.text)
  | .ok l => decideLiterals l

end Congruence

end StraightLine
