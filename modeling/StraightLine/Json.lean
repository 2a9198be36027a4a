/-!
# Json — values as they are written

A value keeps what a later reading may have to refuse: a text may name half of a surrogate pair,
a number may be too large for any machine number, and an object may have a key twice.

* `Json`, `Json.Number` — the values;
* `Json.record?` — an object or an array as a record with known fields;
* `Json.natural?`, `Json.string?`, … — the values of fields;
* `Json.isPlain` — whether all texts and numbers inside have a value, within a bound on nesting.
-/

namespace StraightLine

namespace Json

/-- A number by the digits of its parts. -/
structure Number where
  negative : Bool
  whole : List Char
  /-- The digits after the point, if there is one. -/
  fraction : Option (List Char)
  /-- Whether the exponent is negative, and its digits, if there is one. -/
  exponent : Option (Bool × List Char)
  deriving DecidableEq, Repr

end Json

inductive Json where
  | null
  | bool (b : Bool)
  | number (n : Json.Number)
  /-- A text has no value if an escape names half of a surrogate pair. -/
  | string (text : Option String)
  | array (items : List Json)
  | object (fields : List (Option String × Json))

namespace Json

/-! ## Numbers -/

def digitValue (digit : Char) : Nat :=
  digit.toNat - '0'.toNat

/-- The value of decimal digits, the most significant one first, or `limit` if that is less. -/
def digitsUpTo (limit : Nat) (digits : List Char) : Nat :=
  digits.foldl (fun n d => min limit (10 * n + digitValue d)) 0

/-- The value of decimal digits if it fits in a word of 64 bits. -/
def wordOfDigits? (digits : List Char) : Option Nat :=
  let value := digitsUpTo UInt64.size digits
  if value < UInt64.size then some value else none

namespace Number

/-- The value of a number that is written with digits only and lies below `2 ^ 64`. -/
def natural? (n : Number) : Option Nat :=
  if n.negative || n.fraction.isSome || n.exponent.isSome then none
  else wordOfDigits? n.whole

/-- Appends digits to a significand as long as it stays below `2 ^ 64`, and counts them. -/
def takeDigits (significand taken : Nat) : List Char → Nat × Nat
  | [] => (significand, taken)
  | d :: rest =>
      let longer := 10 * significand + digitValue d
      if longer < UInt64.size then takeDigits longer (taken + 1) rest else (significand, taken)

/-- The exponent that is written. From `2 ^ 31` on its size makes no difference. -/
def writtenExponent (n : Number) : Int :=
  match n.exponent with
  | none => 0
  | some (false, digits) => digitsUpTo 0x80000000 digits
  | some (true, digits) => - digitsUpTo 0x80000000 digits

/-- Whether the number stays finite as a double: its leading digits, at most a word, times a power
of ten.
-/
def isFinite (n : Number) : Bool :=
  let (significand, whole) := takeDigits 0 0 n.whole
  let (significand, fraction) := takeDigits significand 0 (n.fraction.getD [])
  let power := n.writtenExponent + Int.ofNat (n.whole.length - whole) - Int.ofNat fraction
  -- the powers of ten up to 308 are finite themselves
  if significand = 0 ∨ power < 0 then true
  else if 308 < power then false
  else !(significand.toUInt64.toFloat * Float.ofScientific 1 false power.toNat).isInf

end Number

/-! ## Values of fields -/

def natural? : Json → Option Nat
  | number n => n.natural?
  | _ => none

def bool? : Json → Option Bool
  | bool b => some b
  | _ => none

def string? : Json → Option String
  | string text => text
  | _ => none

def strings? : Json → Option (List String)
  | array items => items.mapM string?
  | _ => none

/-- A text, or nothing where `null` is written. -/
def nullOrString? : Json → Option (Option String)
  | null => some none
  | j => j.string?.map some

/-- The name of an alternative without contents: a text, or an object with that only key and
`null`. -/
def alternative? : Json → Option String
  | string text => text
  | object [(some name, null)] => some name
  | _ => none

/-! ## Records -/

/-- The values of the fields that are present, by name. -/
abbrev Fields : Type :=
  List (String × Json)

/-- A record with the known fields, written as an object or as an array in their order. Other
keys of an object are left out, but all keys have to be texts; no known key may come twice, and an
array may not be longer than the record. -/
def record? (known : List String) : Json → Option Fields
  | object fields => do
      let named ← fields.mapM fun f => f.1.map fun key => (key, f.2)
      if known.all fun key => named.countP (fun f => f.1 == key) ≤ 1 then
        some (named.filter fun f => known.contains f.1)
      else none
  | array items => if items.length ≤ known.length then some (known.zip items) else none
  | _ => none

namespace Fields

/-- A field that has to be present. -/
def get? {α : Type} (fields : Fields) (name : String) (read : Json → Option α) : Option α :=
  match fields.lookup name with
  | some j => read j
  | none => none

/-- A field that may be missing. -/
def getOr? {α : Type} (fields : Fields) (name : String) (read : Json → Option α) (missing : α) :
    Option α :=
  match fields.lookup name with
  | some j => read j
  | none => some missing

end Fields

/-! ## Plain values -/

mutual

/-- Whether every text and every number has a value, and at most `room` arrays and objects contain
each other. -/
def isPlain (room : Nat) : Json → Bool
  | number n => n.isFinite
  | string text => text.isSome
  | array items => 0 < room && allPlain (room - 1) items
  | object fields => 0 < room && allFieldsPlain (room - 1) fields
  | _ => true

def allPlain (room : Nat) : List Json → Bool
  | [] => true
  | j :: rest => isPlain room j && allPlain room rest

def allFieldsPlain (room : Nat) : List (Option String × Json) → Bool
  | [] => true
  | (key, j) :: rest => key.isSome && isPlain room j && allFieldsPlain room rest

end

end Json

end StraightLine
