import StraightLine.Calc
import StraightLine.Token

/-!
# Errors — why a function is refused

Every error describes a faulty function; none depends on anything but the text or the tree that was
given.

* `SyntaxFault` — what is wrong at a place of a source text;
* `Defect` — what is wrong with the shape of a function;
* `CompileError` — either of them, or a name or a result that a pass cannot use;
* `CompileError.message` — the wording of each.
-/

namespace StraightLine

/-! ## Faults in a text -/

/-- What a reader was looking for. -/
inductive Expectation where
  | token (token : Token)
  | identifier
  | expression
  deriving DecidableEq, Repr

namespace Expectation

def message : Expectation → String
  | token t => "`" ++ String.ofList t.chars ++ "`"
  | identifier => "identifier"
  | expression => "expression"

end Expectation

inductive SyntaxFault where
  | strayChar (char : Char)
  /-- Another token stood there, or none. -/
  | expected (what : Expectation) (found : Option Token)
  /-- A token after the end of the function. -/
  | trailing (token : Token)
  deriving DecidableEq, Repr

namespace SyntaxFault

def shownOrEnd : Option Token → String
  | some t => t.shown
  | none => "end of input"

def message : SyntaxFault → String
  | strayChar c => "unexpected character `" ++ String.singleton c ++ "`"
  | expected what found => "expected " ++ what.message ++ ", found " ++ shownOrEnd found
  | trailing t => "unexpected trailing " ++ t.shown

end SyntaxFault

/-! ## Faults of a function -/

inductive Defect where
  | nameNotIdentifier
  | tooManyStatements (count limit : Nat)
  | tooDeep (depth limit : Nat)
  /-- Found while reading, with the byte offset of the reader. -/
  | tooDeepAt (depth offset limit : Nat)
  | paramNotIdentifier (param : String)
  | duplicateParam (param : String)
  | targetNotIdentifier (target : String)
  | paramsDiffer (source target : List String)
  deriving DecidableEq, Repr

namespace Defect

def message : Defect → String
  | nameNotIdentifier => "function name is not an identifier"
  | tooManyStatements count limit =>
      toString count ++ " statements exceeds limit of " ++ toString limit
  | tooDeep depth limit =>
      "expression depth " ++ toString depth ++ " exceeds limit of " ++ toString limit
  | tooDeepAt depth offset limit =>
      "expression depth " ++ toString depth ++ " at offset " ++ toString offset ++
        " exceeds limit of " ++ toString limit
  | paramNotIdentifier param => "parameter `" ++ param ++ "` is not an identifier"
  | duplicateParam param => "duplicate parameter `" ++ param ++ "`"
  | targetNotIdentifier target => "assignment target `" ++ target ++ "` is not an identifier"
  | paramsDiffer source target =>
      "parameters (" ++ ", ".intercalate source ++ ") differ from target parameters (" ++
        ", ".intercalate target ++ ")"

end Defect

inductive CompileError where
  | undefinedVariable (function name : String)
  | unsupportedOperator (symbol : String)
  /-- The result has to be a bare name where it is used. -/
  | invalidReturnShape (result : Expr)
  /-- The program uses a name of the shape that a pass generates over `stem`. -/
  | reservedName (name stem : String)
  | syntaxFault (offset : Nat) (fault : SyntaxFault)
  | malformed (function : String) (defect : Defect)
  deriving DecidableEq, Repr

namespace CompileError

def message : CompileError → String
  | undefinedVariable function name =>
      "undefined variable `" ++ name ++ "` in function `" ++ function ++ "`"
  | unsupportedOperator symbol => "unsupported binary operator `" ++ symbol ++ "`"
  | invalidReturnShape result =>
      "lowering requires a variable return expression, got `" ++ result.text ++ "`"
  | reservedName name stem =>
      "identifier `" ++ name ++ "` collides with generated names `" ++ stem ++ "_N`"
  | syntaxFault offset fault =>
      "parse error at offset " ++ toString offset ++ ": " ++ fault.message
  | malformed function defect =>
      "function `" ++ function ++ "` is malformed: " ++ defect.message

end CompileError

end StraightLine
