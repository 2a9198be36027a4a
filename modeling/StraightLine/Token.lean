/-!
# Tokens — the words and signs of both languages

* `Token` — a word, a keyword, a bracket, a separator or an operator sign;
* `Token.chars` — the characters that a token is written with;
* `Token.shown` — how a token is named in a message;
* `Lexeme` — a token with the bytes that it covers in its source.
-/

namespace StraightLine

inductive Token where
  | returnWord
  | ident (name : String)
  | leftParen
  | rightParen
  | leftBrace
  | rightBrace
  | comma
  | semicolon
  | assign
  | op (sign : Char)
  deriving DecidableEq, Repr

namespace Token

/-- The word that ends a body; it is never an identifier. -/
def keyword : String := "return"

/-- The signs that are read as operators. Only four of them have a meaning; the others are refused
where an operator is used. -/
def operatorSigns : List Char :=
  ['-', '+', '*', '/', '%', '^', '&', '|', '<', '>', '!']

/-- The token that a word stands for. -/
def ofWord (word : List Char) : Token :=
  let name := String.ofList word
  if name = keyword then returnWord else ident name

/-- The token that a character stands for by itself. -/
def ofSign? (c : Char) : Option Token :=
  match c with
  | '(' => some leftParen
  | ')' => some rightParen
  | '{' => some leftBrace
  | '}' => some rightBrace
  | ',' => some comma
  | ';' => some semicolon
  | '=' => some assign
  | _ => if operatorSigns.contains c then some (op c) else none

def chars : Token → List Char
  | returnWord => keyword.toList
  | ident name => name.toList
  | leftParen => ['(']
  | rightParen => [')']
  | leftBrace => ['{']
  | rightBrace => ['}']
  | comma => [',']
  | semicolon => [';']
  | assign => ['=']
  | op sign => [sign]

def shown : Token → String
  | returnWord => "Return"
  | ident name => "Ident(\"" ++ name ++ "\")"
  | leftParen => "LParen"
  | rightParen => "RParen"
  | leftBrace => "LBrace"
  | rightBrace => "RBrace"
  | comma => "Comma"
  | semicolon => "Semi"
  | assign => "Assign"
  | op sign => "Op(\"" ++ String.singleton sign ++ "\")"

theorem chars_of_ofSign? {c : Char} {t : Token} (h : ofSign? c = some t) : t.chars = [c] := by
  unfold ofSign? at h
  split at h
  case h_8 =>
    split at h
    · cases h; rfl
    · cases h
  all_goals cases h; rfl

theorem chars_ofWord (word : List Char) : (ofWord word).chars = word := by
  unfold ofWord
  simp only
  split
  · next h => simp [chars, ← h]
  · simp [chars]

end Token

/-- A token and the byte offsets of its first byte and of the byte after its last one. -/
structure Lexeme where
  token : Token
  start : Nat
  stop : Nat
  deriving DecidableEq, Repr

end StraightLine
