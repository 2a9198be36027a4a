import StraightLine.Calc

/-!
# Tac — three-address code

The right-hand side of a Tac assignment is a name or one operator between two names, and the
result is a name. A function is written on several lines:

    f(a, b){
        x = a + b;
        return x;
    }

* `Tac.Value`, `Tac.Function` — the language;
* `Tac.Function.text` — the written form;
* `Tac.Value.expr`, `Tac.Function.toCalc` — every Tac function is a Calc function whose expressions
  have at most one operator; whatever a Tac function means, it means as that function.
-/

namespace StraightLine

namespace Tac

inductive Value where
  | copy (source : String)
  | binary (op : Operator) (left right : String)
  deriving DecidableEq, Repr

abbrev Function := Program Value String

namespace Value

/-- The expression that a right-hand side stands for. -/
def expr : Value → Expr
  | copy source => .var source
  | binary op left right => .binary op (.var left) (.var right)

def reads : Value → List String
  | copy source => [source]
  | binary _ left right => [left, right]

/-- Renames the operands, the left one first. -/
def rename {ε : Type} (name : String → Except ε String) : Value → Except ε Value
  | copy source => return copy (← name source)
  | binary op left right => return binary op (← name left) (← name right)

def text : Value → String
  | copy source => source
  | binary op left right => left ++ " " ++ op.symbol ++ " " ++ right

theorem reads_expr (v : Value) : v.expr.reads = v.reads := by
  cases v <;> rfl

end Value

/-- The written form of one statement, without indentation and semicolon. -/
def statementText (s : Assignment Value) : String :=
  s.target ++ " = " ++ s.value.text

namespace Function

def toCalc (f : Function) : Calc.Function :=
  f.map Value.expr Expr.var

/-- Every name of the function as it is read from left to right, the parameters first. -/
def names (f : Function) : List String :=
  f.params ++ f.body.flatMap (fun s => s.target :: s.value.reads) ++ [f.result]

def text (f : Function) : String :=
  f.headerText ++ "\x7b\n" ++
    String.join (f.body.map fun s => "    " ++ statementText s ++ ";\n") ++
    "    return " ++ f.result ++ ";\n\x7d"

theorem names_toCalc (f : Function) : f.toCalc.names = f.names := by
  simp [Calc.Function.names, names, toCalc, Program.map, Assignment.map, List.flatMap_map,
    Value.reads_expr, Expr.reads]

end Function

/-- The Calc sample in three addresses, with two names used again. -/
def sample : Function :=
  { name := "f"
    params := ["s1", "s2", "t1", "t2"]
    body :=
      [ ⟨"a", .binary .add "s1" "t1"⟩,
        ⟨"b", .binary .add "s2" "t2"⟩,
        ⟨"c", .binary .mul "a" "b"⟩,
        ⟨"b", .binary .mul "c" "s1"⟩,
        ⟨"z", .copy "b"⟩ ]
    result := "z" }

end Tac

end StraightLine
