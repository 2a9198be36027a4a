/-!
# Operators — the four binary operations of straight-line arithmetic

Both languages of this library share the operators `+ - * /`. Each has a one-character sign, a
lower-case mnemonic that names the uninterpreted function standing for it, and a binding strength.

* `Operator.sign`, `Operator.symbol` — the sign, as a character and as a text;
* `Operator.ofSign?`, `Operator.ofSymbol?` — reading a sign back;
* `Operator.precedence` — `*` and `/` bind tighter than `+` and `-`.
-/

namespace StraightLine

inductive Operator where
  | add
  | sub
  | mul
  | div
  deriving DecidableEq, Repr

namespace Operator

/-- The operators in the order in which they are declared to a solver. -/
def all : List Operator := [add, sub, mul, div]

def sign : Operator → Char
  | add => '+'
  | sub => '-'
  | mul => '*'
  | div => '/'

def symbol (op : Operator) : String :=
  String.singleton op.sign

def mnemonic : Operator → String
  | add => "add"
  | sub => "sub"
  | mul => "mul"
  | div => "div"

def precedence : Operator → Nat
  | add | sub => 1
  | mul | div => 2

def ofSign? : Char → Option Operator
  | '+' => some add
  | '-' => some sub
  | '*' => some mul
  | '/' => some div
  | _ => none

def ofSymbol? (text : String) : Option Operator :=
  match text.toList with
  | [c] => ofSign? c
  | _ => none

/-! ## Signs name operators uniquely -/

@[simp]
theorem ofSign?_sign (op : Operator) : ofSign? op.sign = some op := by
  cases op <;> rfl

theorem ofSign?_eq_some {c : Char} {op : Operator} (h : ofSign? c = some op) : c = op.sign := by
  unfold ofSign? at h
  split at h <;> cases h <;> rfl

@[simp]
theorem ofSymbol?_symbol (op : Operator) : ofSymbol? op.symbol = some op := by
  simp [ofSymbol?, symbol]

theorem mem_all (op : Operator) : op ∈ all := by
  cases op <;> simp [all]

end Operator

end StraightLine
