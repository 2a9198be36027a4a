import Std.Data.HashMap
import StraightLine.Tac

/-!
# Evaluation — running a program over an arithmetic

Both languages run the same way over any carrier: parameters are bound, the statements are
executed in order, and the result is read at the end. The first failure ends the run. Only the
arithmetic decides what an operator does.

* `EvalError` — why a run has no value;
* `Arithmetic` — the operators on a carrier; `wordArithmetic` is checked arithmetic on 64-bit words;
* `Calc.Function.evalWith`, `Tac.Function.evalWith` — a run over an arithmetic;
* `Calc.Function.eval`, `Tac.Function.eval` — the run over words.
-/

namespace StraightLine

inductive EvalError (α : Type) where
  | arity (function : String) (expected got : Nat)
  | undefinedVariable (name : String)
  | divisionByZero (dividend : α)
  | overflow (op : Operator) (left right : α)
  deriving DecidableEq, Repr

namespace EvalError

def message : EvalError Int64 → String
  | arity function expected got =>
      "`" ++ function ++ "` takes " ++ toString expected ++ " arguments, got " ++ toString got
  | undefinedVariable name => "undefined variable `" ++ name ++ "`"
  | divisionByZero dividend => "division by zero: " ++ toString dividend.toInt ++ " / 0"
  | overflow op left right =>
      "overflow in " ++ toString left.toInt ++ " " ++ op.symbol ++ " " ++ toString right.toInt

end EvalError

/-! ## Arithmetics -/

/-- What the operators do on a carrier, or why they do nothing. -/
abbrev Arithmetic (α : Type) : Type :=
  Operator → α → α → Except (EvalError α) α

/-- The exact result; a quotient is truncated toward zero. -/
def Operator.exact : Operator → Int → Int → Int
  | .add, a, b => a + b
  | .sub, a, b => a - b
  | .mul, a, b => a * b
  | .div, a, b => a.tdiv b

/-- Whether an integer is the value of some word. -/
def fitsWord (n : Int) : Bool :=
  Int64.minValue.toInt ≤ n && n ≤ Int64.maxValue.toInt

/-- Checked arithmetic: a quotient by zero has no value, and a result has to fit into a word. -/
def wordArithmetic : Arithmetic Int64 := fun op left right =>
  if op = .div ∧ right = 0 then .error (.divisionByZero left)
  else
    -- the least word divided by -1 is out of range as well
    let exact := op.exact left.toInt right.toInt
    if fitsWord exact then .ok (Int64.ofInt exact) else .error (.overflow op left right)

/-! ## Runs -/

/-- The values of the names that are bound so far. -/
abbrev Environment (α : Type) : Type :=
  Std.HashMap String α

namespace Environment

variable {α : Type}

def lookup (env : Environment α) (name : String) : Except (EvalError α) α :=
  match env[name]? with
  | some value => .ok value
  | none => .error (.undefinedVariable name)

/-- Binds names to values in order; the last binding of a name stays. -/
def bindAll (env : Environment α) (bindings : List (String × α)) : Environment α :=
  bindings.foldl (fun env b => env.insert b.1 b.2) env

theorem lookup_insert (env : Environment α) (name other : String) (value : α) :
    lookup (env.insert name value) other =
      if name = other then .ok value else lookup env other := by
  by_cases h : name = other
  · simp [lookup, h]
  · simp [lookup, h, Std.HashMap.getElem?_insert]

end Environment

namespace Expr

variable {α : Type}

/-- The left operand is evaluated first. -/
def evalWith (arith : Arithmetic α) (env : Environment α) : Expr → Except (EvalError α) α
  | var name => env.lookup name
  | binary op left right =>
      match left.evalWith arith env with
      | .error e => .error e
      | .ok l =>
          match right.evalWith arith env with
          | .error e => .error e
          | .ok r => arith op l r

end Expr

namespace Calc

variable {α : Type}

/-- Executes statements; each sees the names that are bound before it. -/
def execute (arith : Arithmetic α) :
    Environment α → List (Assignment Expr) → Except (EvalError α) (Environment α)
  | env, [] => .ok env
  | env, s :: rest =>
      match s.value.evalWith arith env with
      | .error e => .error e
      | .ok v => execute arith (env.insert s.target v) rest

namespace Function

/-- The parameters bound to as many arguments. -/
def enter (f : Function) (args : List α) : Except (EvalError α) (Environment α) :=
  if f.params.length = args.length then .ok (Environment.bindAll ∅ (f.params.zip args))
  else .error (.arity f.name f.params.length args.length)

def evalWith (arith : Arithmetic α) (f : Function) (args : List α) : Except (EvalError α) α := do
  let env ← f.enter args
  let env ← execute arith env f.body
  f.result.evalWith arith env

def eval (f : Function) (args : List Int64) : Except (EvalError Int64) Int64 :=
  f.evalWith wordArithmetic args

end Function

end Calc

namespace Tac

namespace Function

variable {α : Type}

/-- A three-address function runs as the Calc function that it is. -/
def evalWith (arith : Arithmetic α) (f : Function) (args : List α) : Except (EvalError α) α :=
  f.toCalc.evalWith arith args

def eval (f : Function) (args : List Int64) : Except (EvalError Int64) Int64 :=
  f.evalWith wordArithmetic args

end Function

end Tac

end StraightLine
