import TimedSafety.Fault

/-!
Arithmetic on bounds inside 64-bit words. The checked sum is the exact sum where that fits a word,
and otherwise the fault that names both bounds; negation of a value is checked the same way.
-/

set_option autoImplicit false

namespace TimedSafety

/-- The negated value, unless it is the smallest word, which has no negative. -/
def Word.negate (value : Int) : Except Fault Int :=
  if Word.Fits (-value) then .ok (-value) else .error .wordOverflow

namespace Bound

/-- The sum of two bounds, or the fault that it overflows. -/
def add (left right : Bound) : Except Fault Bound :=
  if (left.sum right).Fits then .ok (left.sum right) else .error (.boundOverflow left right)

theorem add_eq_ok_iff (left right total : Bound) :
    left.add right = .ok total ↔ (left.sum right).Fits ∧ left.sum right = total := by
  unfold add
  split <;> simp_all

end Bound

end TimedSafety
