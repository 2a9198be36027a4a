import StraightLine.Consumed
import StraightLine.Error
import StraightLine.Token.Lexer

/-!
# Parser — the frame that both languages share

A function text is a header, statements up to the keyword `return`, one result and a closing
brace. The languages differ in the readers for a statement and for the result, which this module
takes as arguments.

* `Parser.Reader` — a reader of lexemes that takes at least one;
* `Parser.expect`, `Parser.identifier` — the smallest readers;
* `Parser.header`, `Parser.statements`, `Parser.program` — the frame;
* `Parser.parse` — the frame applied to a source text.

A fault is reported at the lexeme that stands where the expected one is missing, or at the end of
the source.
-/

namespace StraightLine

namespace Parser

abbrev Reader (α : Type) : Type :=
  (input : List Lexeme) → Except CompileError (Consumed α input)

/-- Byte offset of the next lexeme; `stop` is the length of the source. -/
def offsetOf (stop : Nat) : List Lexeme → Nat
  | [] => stop
  | l :: _ => l.start

/-- The next token is not the expected one. -/
def missing (stop : Nat) (what : Expectation) (input : List Lexeme) : CompileError :=
  .syntaxFault (offsetOf stop input) (.expected what (input.head?.map Lexeme.token))

/-- Whether the next token is `token`. -/
def nextIs (token : Token) : List Lexeme → Bool
  | [] => false
  | l :: _ => l.token == token

def expect (stop : Nat) (token : Token) : Reader Unit
  | [] => .error (missing stop (.token token) [])
  | l :: rest =>
      if l.token = token then .ok (.head () l rest)
      else .error (missing stop (.token token) (l :: rest))

def identifier (stop : Nat) : Reader String
  | [] => .error (missing stop .identifier [])
  | l :: rest =>
      match l.token with
      | .ident name => .ok (.head name l rest)
      | _ => .error (missing stop .identifier (l :: rest))

/-! ## Header -/

/-- The names after the first one, each with a comma before it. `found` holds the names so far in
reverse order. -/
def moreNames (stop : Nat) (found : List String) (input : List Lexeme) :
    Except CompileError { read : List String × List Lexeme // read.2.length ≤ input.length } :=
  match input with
  | [] => .ok ⟨(found.reverse, []), Nat.le_refl _⟩
  | l :: rest =>
      -- a comma promises one more name
      if l.token = .comma then
        match identifier stop rest with
        | .error e => .error e
        | .ok name =>
            match moreNames stop (name.value :: found) name.rest with
            | .error e => .error e
            | .ok more => .ok ⟨more.val, by
                have := name.shorter
                have := more.property
                simp only [List.length_cons]
                omega⟩
      else .ok ⟨(found.reverse, l :: rest), Nat.le_refl _⟩
  termination_by input.length
  decreasing_by
    have := name.shorter
    simp only [List.length_cons]
    omega

/-- The parameters, up to the closing parenthesis, which is not taken. -/
def paramNames (stop : Nat) (input : List Lexeme) :
    Except CompileError { read : List String × List Lexeme // read.2.length ≤ input.length } :=
  if nextIs .rightParen input then .ok ⟨([], input), Nat.le_refl _⟩
  else
    match identifier stop input with
    | .error e => .error e
    | .ok first =>
        match moreNames stop [first.value] first.rest with
        | .error e => .error e
        | .ok more => .ok ⟨more.val, by
            have := first.shorter
            have := more.property
            omega⟩

/-- Name and parameters, with the brace that opens the body. -/
def header (stop : Nat) : Reader (String × List String) := fun input => do
  let name ← identifier stop input
  let opening ← expect stop .leftParen name.rest
  let params ← paramNames stop opening.rest
  let closing ← expect stop .rightParen params.val.2
  let brace ← expect stop .leftBrace closing.rest
  -- every part but the parameters takes a lexeme, so what is left is shorter
  return ⟨(name.value, params.val.1), brace.rest, by
    have := name.shorter
    have := opening.shorter
    have := params.property
    have := closing.shorter
    have := brace.shorter
    omega⟩

/-! ## Body and result -/

/-- A target, the sign `=`, a right-hand side and a semicolon. -/
def statement {V : Type} (stop : Nat) (value : Reader V) : Reader (Assignment V) := fun input => do
  let target ← identifier stop input
  let sign ← expect stop .assign target.rest
  let value ← value sign.rest
  let semicolon ← expect stop .semicolon value.rest
  return ⟨⟨target.value, value.value⟩, semicolon.rest, by
    have := target.shorter
    have := sign.shorter
    have := value.shorter
    have := semicolon.shorter
    omega⟩

/-- The statements before the keyword `return`, which is not taken. `found` holds the statements so
far in reverse order. -/
def statements {V : Type} (stop : Nat) (value : Reader V) (found : List (Assignment V))
    (input : List Lexeme) : Except CompileError (List (Assignment V) × List Lexeme) :=
  if nextIs .returnWord input then .ok (found.reverse, input)
  else
    match statement stop value input with
    | .error e => .error e
    | .ok s => statements stop value (s.value :: found) s.rest
  termination_by input.length
  decreasing_by exact s.shorter

/-- The keyword `return`, the result, and what closes the function. -/
def ending {R : Type} (stop : Nat) (result : Reader R) : Reader R := fun input => do
  let word ← expect stop .returnWord input
  let result ← result word.rest
  let semicolon ← expect stop .semicolon result.rest
  let brace ← expect stop .rightBrace semicolon.rest
  return ⟨result.value, brace.rest, by
    have := word.shorter
    have := result.shorter
    have := semicolon.shorter
    have := brace.shorter
    omega⟩

/-! ## Whole functions -/

/-- Reads a function that takes up the whole input. The readers for right-hand sides and for the
result may depend on the function's name. -/
def program {V R : Type} (stop : Nat) (value : String → Reader V) (result : String → Reader R)
    (input : List Lexeme) : Except CompileError (Program V R) := do
  let header ← header stop input
  let (name, params) := header.value
  let (body, rest) ← statements stop (value name) [] header.rest
  let result ← ending stop (result name) rest
  match result.rest with
  | [] => return { name, params, body, result := result.value }
  | l :: _ => throw (.syntaxFault l.start (.trailing l.token))

/-- Scans `source` and reads one function from its lexemes; `program` is told the length of the
source in bytes. -/
def parse {α : Type} (program : Nat → List Lexeme → Except CompileError α) (source : String) :
    Except CompileError α :=
  match Token.scan source with
  | .error stray => .error (.syntaxFault stray.offset (.strayChar stray.char))
  | .ok lexemes => program source.utf8ByteSize lexemes

end Parser

end StraightLine
