/-!
# Chain — steps that may fail, one after another

A chain runs its second step on what the first one answers. Proofs about runs, checks and
translations take chains apart with the two lemmas below and never open the monad.

* `except_bind_eq_ok` — the chain has a result when both steps do;
* `except_bind_eq_error` — the chain fails with the error of the first step that does.
-/

namespace StraightLine

variable {ε α β : Type} {x : Except ε α} {f : α → Except ε β}

theorem except_bind_eq_ok {b : β} :
    (do let a ← x; f a) = .ok b ↔ ∃ a, x = .ok a ∧ f a = .ok b := by
  cases x with
  | error e =>
      simp [bind, Except.bind]
  | ok a =>
      simp [bind, Except.bind]

theorem except_bind_eq_error {e : ε} :
    (do let a ← x; f a) = .error e ↔ x = .error e ∨ ∃ a, x = .ok a ∧ f a = .error e := by
  cases x with
  | error e' =>
      simp [bind, Except.bind]
  | ok a =>
      simp [bind, Except.bind]

end StraightLine
