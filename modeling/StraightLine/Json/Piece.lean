import StraightLine.Json

/-!
# Json.Piece — the parts of a written value

A text is cut into brackets, separators, texts and words before any of them is put inside another.
Blanks are space, tab, line feed and carriage return. A text holds no control characters. A word
goes on until a blank, a bracket, a separator or a quote, and is a number or one of the three
values that are words.

* `Json.Number.ofChars?` — numbers, which have no superfluous zeros;
* `Json.textItems?`, `Json.joinUnits?` — what a text is written with, and its characters;
* `Json.Piece`, `Json.pieces?` — the parts of a whole text.
-/

namespace StraightLine

namespace Json

/-! ## Numbers -/

namespace Number

/-- At least one digit. -/
def digits? (input : List Char) : Option (List Char × List Char) :=
  match input.takeWhile Char.isDigit with
  | [] => none
  | ds => some (ds, input.dropWhile Char.isDigit)

/-- The digits before the point: a single zero, or no zero in front. -/
def wholeDigits? (input : List Char) : Option (List Char × List Char) := do
  let (ds, rest) ← digits? input
  if ds.head? = some '0' ∧ ds ≠ ['0'] then none else some (ds, rest)

def fraction? : List Char → Option (Option (List Char) × List Char)
  | '.' :: rest => (digits? rest).map fun r => (some r.1, r.2)
  | input => some (none, input)

def exponent? : List Char → Option (Option (Bool × List Char) × List Char)
  | c :: rest =>
      if c = 'e' ∨ c = 'E' then
        match rest with
        | '+' :: rest => (digits? rest).map fun r => (some (false, r.1), r.2)
        | '-' :: rest => (digits? rest).map fun r => (some (true, r.1), r.2)
        | rest => (digits? rest).map fun r => (some (false, r.1), r.2)
      else some (none, c :: rest)
  | [] => some (none, [])

/-- All characters, after the sign, as one number. -/
def unsigned? (negative : Bool) (input : List Char) : Option Number := do
  let (whole, rest) ← wholeDigits? input
  let (fraction, rest) ← fraction? rest
  let (exponent, rest) ← exponent? rest
  if rest.isEmpty then some { negative, whole, fraction, exponent } else none

def ofChars? : List Char → Option Number
  | '-' :: rest => unsigned? true rest
  | input => unsigned? false input

end Number

/-! ## Texts -/

/-- A character, or a code unit that was written as an escape. -/
inductive TextItem where
  | char (c : Char)
  | unit (n : Nat)

/-- The characters of the items after those of `found`, which is in reverse order. Escaped units
have to form whole characters.
-/
def joinUnits? (found : List Char) : List TextItem → Option (List Char)
  | [] => some found.reverse
  | .char c :: rest => joinUnits? (c :: found) rest
  | .unit n :: rest =>
      if n < 0xD800 ∨ 0xE000 ≤ n then joinUnits? (Char.ofNat n :: found) rest
      else
        -- the first half of a pair has to be followed by a second half
        match rest with
        | .unit m :: rest =>
            if n < 0xDC00 ∧ 0xDC00 ≤ m ∧ m < 0xE000 then
              joinUnits? (Char.ofNat (0x10000 + (n - 0xD800) * 0x400 + (m - 0xDC00)) :: found) rest
            else none
        | _ => none

def hexDigit? (c : Char) : Option Nat :=
  if c.isDigit then some (c.toNat - '0'.toNat)
  else if 'a' ≤ c ∧ c ≤ 'f' then some (c.toNat - 'a'.toNat + 10)
  else if 'A' ≤ c ∧ c ≤ 'F' then some (c.toNat - 'A'.toNat + 10)
  else none

/-- The code unit with the given hexadecimal digits. -/
def unit? (a b c d : Char) : Option TextItem := do
  return .unit (((← hexDigit? a) * 16 + (← hexDigit? b)) * 256 +
    ((← hexDigit? c) * 16 + (← hexDigit? d)))

/-- The character that a one-letter escape stands for. -/
def shortEscape? : Char → Option Char
  | '"' => some '"'
  | '\\' => some '\\'
  | '/' => some '/'
  | 'b' => some '\x08'
  | 'f' => some '\x0c'
  | 'n' => some '\n'
  | 'r' => some '\r'
  | 't' => some '\t'
  | _ => none

/-- The items up to the closing quote, and what follows it. `found` holds the items so far in
reverse order. -/
def textItems? (found : List TextItem) : List Char → Option (List TextItem × List Char)
  | '"' :: rest => some (found.reverse, rest)
  | '\\' :: 'u' :: a :: b :: c :: d :: rest =>
      match unit? a b c d with
      | some u => textItems? (u :: found) rest
      | none => none
  | '\\' :: c :: rest =>
      -- a `u` without four digits is no escape either
      match shortEscape? c with
      | some c => textItems? (.char c :: found) rest
      | none => none
  | c :: rest =>
      if c.toNat < 0x20 ∨ c = '\\' then none else textItems? (.char c :: found) rest
  | [] => none

theorem textItems?_length {found items : List TextItem} {input rest : List Char}
    (h : textItems? found input = some (items, rest)) : rest.length < input.length := by
  fun_induction textItems? found input <;> simp_all <;> omega

/-! ## Pieces -/

inductive Piece where
  | openArray
  | closeArray
  | openObject
  | closeObject
  | comma
  | colon
  | text (text : Option String)
  /-- A value that is written as a word. -/
  | word (value : Json)

def isBlank (c : Char) : Bool :=
  c == ' ' || c == '\t' || c == '\n' || c == '\r'

namespace Piece

/-- The bracket or separator that a character is. -/
def ofSign? : Char → Option Piece
  | '[' => some openArray
  | ']' => some closeArray
  | '\x7b' => some openObject
  | '\x7d' => some closeObject
  | ',' => some comma
  | ':' => some colon
  | _ => none

/-- Whether a character belongs to the word before it. -/
def staysInWord (c : Char) : Bool :=
  !isBlank c && (ofSign? c).isNone && c != '"'

def ofWord? (word : List Char) : Option Piece :=
  if word = ['n', 'u', 'l', 'l'] then some (.word null)
  else if word = ['t', 'r', 'u', 'e'] then some (.word (bool true))
  else if word = ['f', 'a', 'l', 's', 'e'] then some (.word (bool false))
  else (Number.ofChars? word).map fun n => .word (number n)

end Piece

/-- The pieces of a text after those of `found`, which is in reverse order. -/
def piecesFrom? (found : List Piece) : List Char → Option (List Piece)
  | [] => some found.reverse
  | c :: rest =>
      if isBlank c then piecesFrom? found rest
      else if c = '"' then
        match h : textItems? [] rest with
        | some (items, later) =>
            have := textItems?_length h
            piecesFrom? (.text ((joinUnits? [] items).map String.ofList) :: found) later
        | none => none
      else
        match Piece.ofSign? c with
        | some p => piecesFrom? (p :: found) rest
        | none =>
            match Piece.ofWord? (c :: rest.takeWhile Piece.staysInWord) with
            | some p => piecesFrom? (p :: found) (rest.dropWhile Piece.staysInWord)
            | none => none
  termination_by cs => cs.length
  decreasing_by
    · simp
    · simp only [List.length_cons]
      omega
    · simp
    · have := (List.dropWhile_sublist Piece.staysInWord (l := rest)).length_le
      simp only [List.length_cons]
      omega

def pieces? (text : List Char) : Option (List Piece) :=
  piecesFrom? [] text

end Json

end StraightLine
