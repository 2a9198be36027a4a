/-!
# FreshNames — numbered names over a stem

A generator hands out `stem_0`, `stem_1`, … in order. One generator serves one pass over one
function; a name is never handed out twice.

* `FreshNames.nextName` — the next name, and the generator that has issued it;
* `FreshNames.take` — several names in a row;
* `FreshNames.owns` — whether a text has the shape of this generator's names, issued or not.
-/

namespace StraightLine

structure FreshNames where
  /-- What every name starts with, before the last underscore. -/
  stem : String
  /-- How many names have been issued; the number of the next one. A counter of 64 bits gives the
  same numbers below `2 ^ 64`. -/
  issued : Nat
  deriving DecidableEq, Repr

namespace FreshNames

/-- A generator that has issued nothing. -/
def ofStem (stem : String) : FreshNames :=
  { stem, issued := 0 }

/-- The name with number `k`. -/
def nameAt (stem : String) (k : Nat) : String :=
  stem ++ "_" ++ toString k

def nextName (fresh : FreshNames) : String × FreshNames :=
  (nameAt fresh.stem fresh.issued, { fresh with issued := fresh.issued + 1 })

/-- The next `count` names, in the order of their numbers. -/
def take : Nat → FreshNames → List String × FreshNames
  | 0, fresh => ([], fresh)
  | count + 1, fresh =>
      let (name, fresh) := fresh.nextName
      let (names, fresh) := take count fresh
      (name :: names, fresh)

/-- What follows `start` in `text`, if `text` begins with it. -/
def after? : (start text : List Char) → Option (List Char)
  | [], text => some text
  | _ :: _, [] => none
  | a :: start, b :: text => if a = b then after? start text else none

/-- Whether `name` is the stem, an underscore and at least one ASCII digit, and nothing else. -/
def owns (fresh : FreshNames) (name : String) : Bool :=
  match after? (fresh.stem.toList ++ ['_']) name.toList with
  | some (d :: ds) => (d :: ds).all Char.isDigit
  | _ => false

theorem after?_eq_some {start text rest : List Char} :
    after? start text = some rest ↔ text = start ++ rest := by
  induction start generalizing text with
  | nil =>
      simp [after?, eq_comm]
  | cons a start ih =>
      cases text with
      | nil =>
          simp [after?]
      | cons b text =>
          by_cases h : a = b
          · simp [after?, h, ih]
          · simp [after?, h, Ne.symm h]

/-- A name is owned when it is written with the stem, an underscore and a number in any spelling. -/
theorem owns_iff {fresh : FreshNames} {name : String} :
    fresh.owns name = true ↔
      ∃ digits : List Char, digits ≠ [] ∧ digits.all Char.isDigit = true ∧
        name.toList = fresh.stem.toList ++ '_' :: digits := by
  have split (digits : List Char) :
      after? (fresh.stem.toList ++ ['_']) name.toList = some digits ↔
        name.toList = fresh.stem.toList ++ '_' :: digits := by
    rw [after?_eq_some]
    simp
  unfold owns
  constructor
  · intro h
    split at h
    case h_1 d ds hd =>
        exact ⟨d :: ds, by simp, h, (split _).1 hd⟩
    case h_2 =>
        cases h
  · rintro ⟨digits, hne, hall, hname⟩
    rw [(split digits).2 hname]
    cases digits with
    | nil =>
        exact absurd rfl hne
    | cons d ds =>
        exact hall

end FreshNames

end StraightLine
