import StraightLine.Expr
import StraightLine.Program

/-!
# Calc — functions over nested expressions

A Calc function assigns expressions to names and returns an expression. It is written on one line:

    f(a, b){x=(a+b)*a; return x;}

* `Calc.Function` — the language;
* `Calc.Function.text` — the written form;
* `Calc.sample` — a small function that assigns one name twice.
-/

namespace StraightLine

namespace Calc

abbrev Function := Program Expr Expr

/-- The written form of one statement, without its semicolon. -/
def statementText (s : Assignment Expr) : String :=
  s.target ++ "=" ++ s.value.text

namespace Function

/-- The expressions of the body in order, then the returned one. -/
def exprs (f : Function) : List Expr :=
  f.body.map Assignment.value ++ [f.result]

/-- The returned variable, when the result is a bare name. -/
def returnVar? (f : Function) : Option String :=
  f.result.varName?

/-- Every name of the function as it is read from left to right, the parameters first. -/
def names (f : Function) : List String :=
  f.params ++ f.body.flatMap (fun s => s.target :: s.value.reads) ++ f.result.reads

def text (f : Function) : String :=
  f.headerText ++ "\x7b" ++ String.join (f.body.map fun s => statementText s ++ "; ") ++
    "return " ++ f.result.text ++ ";\x7d"

end Function

/-- Assigns `z` a product of sums, then multiplied once more. -/
def sample : Function :=
  { name := "f"
    params := ["s1", "s2", "t1", "t2"]
    body :=
      [ ⟨"z", .binary .mul (.binary .add (.var "s1") (.var "t1"))
          (.binary .add (.var "s2") (.var "t2"))⟩,
        ⟨"z", .binary .mul (.var "z") (.var "s1")⟩ ]
    result := .var "z" }

end Calc

end StraightLine
