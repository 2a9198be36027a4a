import StraightLine.Text

/-!
# SExpr — the lists that solvers write

A text is cut into parentheses and atoms, and the parentheses are matched with a stack of open
lists. Nothing is an error: a closing parenthesis without an opening one is skipped, and lists
that are never closed are dropped together with what they hold.

* `SExpr.Piece`, `SExpr.pieces` — parentheses and atoms; comments run from `;` to the end of the
  line;
* `SExpr.ofPieces` — the complete expressions of a sequence of pieces;
* `SExpr.readAll` — the complete expressions of a text;
* `SExpr.text` — the written form, items separated by one blank.
-/

namespace StraightLine

inductive SExpr where
  | atom (text : List Char)
  | list (items : List SExpr)
  deriving Repr

namespace SExpr

/-! ## Pieces -/

inductive Piece where
  | opening
  | closing
  | atom (text : List Char)
  deriving DecidableEq, Repr

/-- A bare atom goes on until a blank or a parenthesis. -/
def staysInAtom (c : Char) : Bool :=
  !Text.isBlank c && c != '(' && c != ')'

/-- Splits after the first `quote`, which belongs to the first part; without one, all is the first
part. -/
def upToQuote (quote : Char) : List Char → List Char × List Char
  | [] => ([], [])
  | c :: rest =>
      if c = quote then ([c], rest)
      else
        let (text, later) := upToQuote quote rest
        (c :: text, later)

theorem upToQuote_length (quote : Char) (cs : List Char) :
    (upToQuote quote cs).2.length ≤ cs.length := by
  induction cs with
  | nil =>
      simp [upToQuote]
  | cons c rest ih =>
      by_cases h : c = quote
      · simp [upToQuote, h]
      · simp only [upToQuote, h, if_false, List.length_cons]
        omega

/-- The pieces of a text after those of `found`, which is in reverse order. -/
def piecesFrom (found : List Piece) : List Char → List Piece
  | [] => found.reverse
  | c :: rest =>
      if c = '(' then piecesFrom (.opening :: found) rest
      else if c = ')' then piecesFrom (.closing :: found) rest
      else if c = ';' then piecesFrom found (rest.dropWhile (· != '\n'))
      else if Text.isBlank c then piecesFrom found rest
      else if c = '|' ∨ c = '"' then
        let quoted := upToQuote c rest
        piecesFrom (.atom (c :: quoted.1) :: found) quoted.2
      else
        piecesFrom (.atom (c :: rest.takeWhile staysInAtom) :: found) (rest.dropWhile staysInAtom)
  termination_by cs => cs.length
  decreasing_by
    all_goals simp only [List.length_cons]
    all_goals have := (List.dropWhile_sublist (fun c : Char => c != '\n') (l := rest)).length_le
    all_goals have := (List.dropWhile_sublist staysInAtom (l := rest)).length_le
    all_goals have := upToQuote_length c rest
    all_goals omega

def pieces (text : List Char) : List Piece :=
  piecesFrom [] text

/-! ## Lists -/

/-- The items of the list that is being read, in reverse order, and those of the lists around it
from the inside out. -/
structure Open where
  items : List SExpr
  around : List (List SExpr)

def Open.step (o : Open) : Piece → Open
  | .opening => ⟨[], o.items :: o.around⟩
  | .closing =>
      match o.around with
      -- nothing is open, so there is nothing to close
      | [] => o
      | outer :: around => ⟨.list o.items.reverse :: outer, around⟩
  | .atom text => ⟨.atom text :: o.items, o.around⟩

/-- The items of the outermost level; what is still open is dropped. -/
def Open.outermost (o : Open) : List SExpr :=
  (o.around.getLast?.getD o.items).reverse

def ofPieces (pieces : List Piece) : List SExpr :=
  (pieces.foldl Open.step ⟨[], []⟩).outermost

def readAll (text : List Char) : List SExpr :=
  ofPieces (pieces text)

/-! ## Written form -/

mutual

/-- The written form with `later` behind it. -/
def textBefore (later : List Char) : SExpr → List Char
  | atom text => text ++ later
  | list items => '(' :: itemsBefore (')' :: later) items

/-- Items with one blank between each two, and `later` behind them. -/
def itemsBefore (later : List Char) : List SExpr → List Char
  | [] => later
  | [item] => item.textBefore later
  | item :: rest => item.textBefore (' ' :: itemsBefore later rest)

end

def text (e : SExpr) : List Char :=
  e.textBefore []

end SExpr

end StraightLine
