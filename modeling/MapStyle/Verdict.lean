/-!
# Verdicts

Tests on a candidate may fail to give an answer, so conjunction and disjunction work on three
values: a side that decides the whole does so even if the other side has no answer, and otherwise
the first failure is the outcome.
-/

namespace MapStyle

/-- The outcome of a test: true, false, or the reason why there is no answer. -/
abbrev Verdict (ε : Type) := Except ε Bool

namespace Verdict

variable {ε : Type}

/-- False if one side is false, else the first failure, else true. -/
def and : Verdict ε → Verdict ε → Verdict ε
  | .ok false, _ => .ok false
  | .ok true, v => v
  | .error _, .ok false => .ok false
  | .error e, _ => .error e

/-- True if one side is true, else the first failure, else false. -/
def or : Verdict ε → Verdict ε → Verdict ε
  | .ok true, _ => .ok true
  | .ok false, v => v
  | .error _, .ok true => .ok true
  | .error e, _ => .error e

/-- The opposite answer, where there is one. -/
def not (v : Verdict ε) : Verdict ε :=
  v.map Bool.not

/-- Whether the outcome is true; no answer counts as false. -/
def holds : Verdict ε → Bool
  | .ok b => b
  | .error _ => false

end Verdict

end MapStyle
