import StraightLine.Json.Piece

/-!
# Json.Parser — reading one value

The pieces of a text are read one after the other, with a stack of the arrays and objects that are
still open, so that values may be nested to any depth.

* `Json.Frame`, `Json.Reading` — what is open, and what may come next;
* `Json.Reading.step` — one more piece;
* `Json.parse?` — a text that is one value.
-/

namespace StraightLine

namespace Json

/-- An array or an object that is still open, with what it holds so far in reverse order. -/
inductive Frame where
  | array (items : List Json)
  /-- The value of the last key is being read. -/
  | object (fields : List (Option String × Json)) (key : Option String)

/-- What may come next, where `around` holds what is open from the inside out. -/
inductive Reading where
  | value (around : List Frame)
  /-- An item of a new array, or its end. -/
  | firstItem (around : List Frame)
  /-- A key of a new object, or its end. -/
  | firstKey (around : List Frame)
  /-- Another key of an object. -/
  | nextKey (fields : List (Option String × Json)) (around : List Frame)
  | colon (fields : List (Option String × Json)) (key : Option String) (around : List Frame)
  /-- A value is complete: a separator, the end of what it is in, or nothing. -/
  | complete (value : Json) (around : List Frame)

namespace Reading

/-- The front of a value. -/
def beginValue (around : List Frame) : Piece → Option Reading
  | .openArray => some (firstItem around)
  | .openObject => some (firstKey around)
  | .text text => some (complete (.string text) around)
  | .word v => some (complete v around)
  | _ => none

/-- What follows a value inside a frame. -/
def goOnOrClose (v : Json) (around : List Frame) : Frame → Piece → Option Reading
  | .array items, .comma => some (value (.array (v :: items) :: around))
  | .array items, .closeArray => some (complete (.array (v :: items).reverse) around)
  | .object fields key, .comma => some (nextKey ((key, v) :: fields) around)
  | .object fields key, .closeObject =>
      some (complete (.object ((key, v) :: fields).reverse) around)
  | _, _ => none

def step : Reading → Piece → Option Reading
  | value around, p => beginValue around p
  | firstItem around, .closeArray => some (complete (.array []) around)
  | firstItem around, p => beginValue (.array [] :: around) p
  | firstKey around, .closeObject => some (complete (.object []) around)
  | firstKey around, .text key => some (colon [] key around)
  | nextKey fields around, .text key => some (colon fields key around)
  | colon fields key around, .colon => some (value (.object fields key :: around))
  | complete v (frame :: around), p => goOnOrClose v around frame p
  | _, _ => none

/-- The value, if it is complete and nothing is open. -/
def value? : Reading → Option Json
  | complete v [] => some v
  | _ => none

end Reading

/-- The value that consists of the pieces. -/
def ofPieces? (pieces : List Piece) : Option Json :=
  (pieces.foldlM Reading.step (.value [])).bind Reading.value?

/-- A text that is one value with blanks around it. -/
def parse? (source : String) : Option Json :=
  (pieces? source.toList).bind ofPieces?

end Json

end StraightLine
