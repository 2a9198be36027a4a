/-!
# Consumed — what a reader has taken from the front of a list

A reader returns its value together with the rest of its input and the fact that the rest is
shorter. Recursion over "whatever is left" then ends by the length of the list, and no reader can
stand still.

* `Consumed α input` — a value and the rest of `input`;
* `Consumed.widen` — the same reading, seen from a longer input.
-/

namespace StraightLine

structure Consumed (α : Type) {β : Type} (input : List β) where
  value : α
  rest : List β
  shorter : rest.length < input.length

namespace Consumed

variable {α β : Type}

/-- The front element has been taken. -/
def head (value : α) (b : β) (rest : List β) : Consumed α (b :: rest) :=
  { value, rest, shorter := by simp }

/-- A reading of what is left after a shorter front of `input` is a reading of `input`. -/
def widen {γ : Type} {input later : List β} (value : γ) (c : Consumed α later)
    (h : later.length < input.length) : Consumed γ input :=
  { value, rest := c.rest, shorter := Nat.lt_trans c.shorter h }

/-- What stands behind the next element of the rest is shorter as well. -/
theorem tail_shorter {input rest : List β} {b : β} (c : Consumed α input) (h : c.rest = b :: rest) :
    rest.length < input.length := by
  have hlt := c.shorter
  rw [h, List.length_cons] at hlt
  exact Nat.lt_of_succ_lt hlt

end Consumed

end StraightLine
