import Std.Data.HashMap
import StraightLine.Smt.Script
import StraightLine.Tac

/-!
# Encoding — assignments as equations

An assignment `x = e` becomes the equation of the constant `x` and the term for `e`, where names
are constants of one sort and each operator is a binary function of which nothing is known. One
encoding is shared by both functions of a question, so that equal names mean equal constants.

* `Encoding.empty` — the sort and the four functions are declared from the start;
* `Encoding.constant` — a name's constant, declared when it is first met;
* `Encoding.expr`, `Encoding.assignments` — terms and equations;
* `Encoding.calcBody`, `Encoding.tacBody` — one equation for each statement, in order.
-/

namespace StraightLine

open Smt

namespace Encoding

/-- The sort of all values. -/
def valueSort : UninterpretedSort :=
  { name := "S" }

/-- The plain mnemonic could be a solver's own function. -/
def operatorName (op : Operator) : String :=
  "f_" ++ op.mnemonic

/-- The function that stands for an operator. -/
def operatorSymbol (op : Operator) : FunctionSymbol :=
  { name := operatorName op, domain := [valueSort, valueSort], range := valueSort }

/-- The constant that stands for a name. -/
def constantOf (name : String) : Constant :=
  { name, sort := valueSort }

end Encoding

/-- A script under construction, with the constants it declares by name. -/
structure Encoding where
  script : Script
  constants : Std.HashMap String Constant

namespace Encoding

def empty : Encoding :=
  let script := (Script.empty.declareSort valueSort.name).2
  { script := Operator.all.foldl (fun s op =>
      (s.declareFunction (operatorName op) [valueSort, valueSort] valueSort).2) script
    constants := ∅ }

def constant (enc : Encoding) (name : String) : Constant × Encoding :=
  match enc.constants[name]? with
  | some c => (c, enc)
  | none =>
      let c := constantOf name
      (c, { script := enc.script.declareConstant c, constants := enc.constants.insert name c })

/-- The term for an expression; constants are met from left to right. -/
def expr (enc : Encoding) : Expr → Term × Encoding
  | .var name =>
      let (c, enc) := enc.constant name
      (.const c, enc)
  | .binary op left right =>
      let (l, enc) := enc.expr left
      let (r, enc) := enc.expr right
      (.app (operatorSymbol op) [l, r], enc)

/-- The target is met before the names that its expression reads. -/
def assignment (enc : Encoding) (s : Assignment Expr) : Formula × Encoding :=
  let (target, enc) := enc.constant s.target
  let (value, enc) := enc.expr s.value
  (.eq (.const target) value, enc)

def assignments (enc : Encoding) : List (Assignment Expr) → List Formula × Encoding
  | [] => ([], enc)
  | s :: rest =>
      let (f, enc) := enc.assignment s
      let (more, enc) := enc.assignments rest
      (f :: more, enc)

def calcBody (enc : Encoding) (f : Calc.Function) : List Formula × Encoding :=
  enc.assignments f.body

def tacBody (enc : Encoding) (f : Tac.Function) : List Formula × Encoding :=
  enc.calcBody f.toCalc

def assert (enc : Encoding) (f : Formula) : Encoding :=
  { enc with script := enc.script.assert f }

end Encoding

end StraightLine
