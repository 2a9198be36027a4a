import StraightLine.Identifier
import StraightLine.Token

/-!
# Lexer — from a source text to its lexemes

Blanks are space, tab, carriage return and line feed; a comment runs from `//` to the end of its
line. Both separate tokens and leave nothing. A word is taken as long as it goes on. The first
character that starts no token stops the scan.

* `Token.scan` — the lexemes of a text, or its first stray character with the byte offset of it;
* `Token.byteCount` — the length of a run of characters in UTF-8.
-/

namespace StraightLine

/-- A character that starts no token, and its byte offset. -/
structure StrayChar where
  offset : Nat
  char : Char
  deriving DecidableEq, Repr

namespace Token

def isBlank (c : Char) : Bool :=
  c == ' ' || c == '\t' || c == '\r' || c == '\n'

def byteCount (cs : List Char) : Nat :=
  cs.foldl (fun n c => n + c.utf8Size) 0

/-- Whether a character still belongs to the comment before it. -/
def staysInComment (c : Char) : Bool :=
  c != '\n'

/-- Reads the characters from byte `offset` on and puts their lexemes before those of `found`, which
is in reverse order. -/
def scanFrom (found : List Lexeme) (offset : Nat) : List Char → Except StrayChar (List Lexeme)
  | [] => .ok found.reverse
  | '/' :: '/' :: rest =>
      -- the line feed stays, and is skipped as a blank
      let comment := rest.takeWhile staysInComment
      scanFrom found (offset + 2 + byteCount comment) (rest.dropWhile staysInComment)
  | c :: rest =>
      if isBlank c then
        scanFrom found (offset + c.utf8Size) rest
      else if Identifier.opens c then
        let word := c :: rest.takeWhile Identifier.continues
        let stop := offset + byteCount word
        scanFrom (⟨ofWord word, offset, stop⟩ :: found) stop (rest.dropWhile Identifier.continues)
      else
        match ofSign? c with
        | some token =>
            let stop := offset + c.utf8Size
            scanFrom (⟨token, offset, stop⟩ :: found) stop rest
        | none => .error ⟨offset, c⟩
  termination_by cs => cs.length
  decreasing_by
    all_goals simp only [List.length_cons]
    all_goals have := (List.dropWhile_sublist staysInComment (l := rest)).length_le
    all_goals have := (List.dropWhile_sublist Identifier.continues (l := rest)).length_le
    all_goals omega

def scan (source : String) : Except StrayChar (List Lexeme) :=
  scanFrom [] 0 source.toList

end Token

end StraightLine
