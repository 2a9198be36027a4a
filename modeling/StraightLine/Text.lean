/-!
# Text — blanks, lines and words

A blank is a character with the Unicode property `White_Space`.

* `Text.isBlank` — the table of the property;
* `Text.trim`, `Text.lines`, `Text.words` — a text without outer blanks, and its parts.
-/

namespace StraightLine

namespace Text

/-- The twenty-five characters with the property `White_Space`. -/
def isBlank (c : Char) : Bool :=
  let n := c.toNat
  (0x9 ≤ n && n ≤ 0xD) || n == 0x20 || n == 0x85 || n == 0xA0 || n == 0x1680 ||
    (0x2000 ≤ n && n ≤ 0x200A) || n == 0x2028 || n == 0x2029 || n == 0x202F || n == 0x205F ||
    n == 0x3000

/-- Without the characters that satisfy `drop` at both ends. -/
def trimBy (drop : Char → Bool) (cs : List Char) : List Char :=
  ((cs.dropWhile drop).reverse.dropWhile drop).reverse

/-- Without blanks at both ends. -/
def trim (cs : List Char) : List Char :=
  trimBy isBlank cs

/-- The parts of a list between the elements that satisfy `separates`, one more than there are such
elements. `part` holds the part so far and `found` the parts before it, all in reverse order. -/
def splitFrom (separates : Char → Bool) (found : List (List Char)) (part : List Char) :
    List Char → List (List Char)
  | [] => (part.reverse :: found).reverse
  | c :: rest =>
      if separates c then splitFrom separates (part.reverse :: found) [] rest
      else splitFrom separates found (c :: part) rest

def split (separates : Char → Bool) (cs : List Char) : List (List Char) :=
  splitFrom separates [] [] cs

/-- The lines without their outer blanks, as far as anything is left of them. -/
def lines (cs : List Char) : List (List Char) :=
  ((split (· == '\n') cs).map trim).filter (!·.isEmpty)

/-- The runs of characters between blanks. -/
def words (cs : List Char) : List (List Char) :=
  (split isBlank cs).filter (!·.isEmpty)

end Text

end StraightLine
