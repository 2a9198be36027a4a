import StraightLine.Error
import StraightLine.FreshNames

/-!
# Reserved — programs may not use names that a pass generates

* `FreshNames.checkUnowned` — the first name of the generator's shape is an error.
-/

namespace StraightLine

namespace FreshNames

def checkUnowned (fresh : FreshNames) : (names : List String) → Except CompileError Unit
  | [] => .ok ()
  | name :: rest =>
      if fresh.owns name then .error (.reservedName name fresh.stem)
      else fresh.checkUnowned rest

theorem checkUnowned_eq_ok {fresh : FreshNames} {names : List String} :
    fresh.checkUnowned names = .ok () ↔ ∀ name ∈ names, fresh.owns name = false := by
  induction names with
  | nil =>
      simp [checkUnowned]
  | cons name rest ih =>
      by_cases h : fresh.owns name
      · simp [checkUnowned, h]
      · simp [checkUnowned, h, ih]

end FreshNames

end StraightLine
