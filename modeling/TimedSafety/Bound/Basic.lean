import TimedSafety.Word

/-!
Upper bounds on a clock difference: a whole number with a strict or a non-strict comparison, or no
bound at all. Bounds are ordered by how much they admit, so `<3` is below `≤3`, which is below `<4`,
and the infinite bound is greatest. The sum of two bounds is the tightest bound on the sum of two
differences that they admit. `Bound.Admits` is the meaning of a bound: the differences it allows.
-/

set_option autoImplicit false

namespace TimedSafety

/-- An upper bound on a clock difference. -/
inductive Bound where
  | finite (value : Int) (strict : Bool)
  | infinite
deriving DecidableEq

namespace Bound

/-- The bound `≤ value`. -/
abbrev atMost (value : Int) : Bound := finite value false

/-- The bound `< value`. -/
abbrev below (value : Int) : Bound := finite value true

/-- The bound `≤ 0`, which every diagonal cell of a non-empty matrix holds. -/
abbrev zero : Bound := atMost 0

/-! ### Order -/

/-- One bound is at most as generous as another. -/
def le : Bound → Bound → Bool
  | _, infinite => true
  | infinite, finite _ _ => false
  | finite value strict, finite otherValue otherStrict =>
    decide (value < otherValue) || (decide (value = otherValue) && (strict || !otherStrict))

instance : LE Bound := ⟨fun left right ↦ left.le right = true⟩

instance : LT Bound := ⟨fun left right ↦ ¬ right ≤ left⟩

instance (left right : Bound) : Decidable (left ≤ right) :=
  inferInstanceAs (Decidable (left.le right = true))

instance (left right : Bound) : Decidable (left < right) :=
  inferInstanceAs (Decidable (¬ right ≤ left))

instance : Min Bound := ⟨fun left right ↦ if left ≤ right then left else right⟩

instance : Max Bound := ⟨fun left right ↦ if left ≤ right then right else left⟩

theorem le_infinite (bound : Bound) : bound ≤ infinite := by
  cases bound <;> rfl

theorem finite_le_finite (value otherValue : Int) (strict otherStrict : Bool) :
    finite value strict ≤ finite otherValue otherStrict ↔
      value < otherValue ∨ (value = otherValue ∧ (strict = true ∨ otherStrict = false)) := by
  change le _ _ = true ↔ _
  simp [le]

theorem not_infinite_le_finite (value : Int) (strict : Bool) :
    ¬ infinite ≤ finite value strict := by
  change ¬ le _ _ = true
  simp [le]

theorem le_refl (bound : Bound) : bound ≤ bound := by
  cases bound with
  | infinite => exact le_infinite _
  | finite value strict =>
    rw [finite_le_finite]
    cases strict <;> simp

theorem le_trans {first second third : Bound} (hleft : first ≤ second) (hright : second ≤ third) :
    first ≤ third := by
  cases first <;> cases second <;> cases third <;>
    simp_all only [le_infinite, finite_le_finite, not_infinite_le_finite]
  grind

theorem le_antisymm {left right : Bound} (hleft : left ≤ right) (hright : right ≤ left) :
    left = right := by
  cases left <;> cases right <;>
    simp_all only [le_infinite, finite_le_finite, not_infinite_le_finite]
  grind

theorem le_total (left right : Bound) : left ≤ right ∨ right ≤ left := by
  cases left <;> cases right <;>
    simp only [le_infinite, finite_le_finite, not_infinite_le_finite, true_or, or_true]
  grind

theorem lt_iff_not_le (left right : Bound) : left < right ↔ ¬ right ≤ left := Iff.rfl

/-- The order of two bounds as a three-way comparison. -/
def compare (left right : Bound) : Ordering :=
  if left = right then .eq else if left < right then .lt else .gt

/-! ### Sum and meaning -/

/-- The exact sum of two bounds, strict as soon as one of them is. -/
def sum : Bound → Bound → Bound
  | finite value strict, finite otherValue otherStrict =>
    finite (value + otherValue) (strict || otherStrict)
  | _, _ => infinite

/-- The bound is infinite or its value fits a word. -/
def Fits : Bound → Prop
  | finite value _ => Word.Fits value
  | infinite => True

instance : (bound : Bound) → Decidable bound.Fits
  | finite value _ => inferInstanceAs (Decidable (Word.Fits value))
  | infinite => inferInstanceAs (Decidable True)

/-- The difference obeys the bound. -/
def Admits : Bound → Rat → Prop
  | finite value true, difference => difference < value
  | finite value false, difference => difference ≤ value
  | infinite, _ => True

instance : (bound : Bound) → (difference : Rat) → Decidable (bound.Admits difference)
  | finite value true, difference => inferInstanceAs (Decidable (difference < (value : Rat)))
  | finite value false, difference => inferInstanceAs (Decidable (difference ≤ (value : Rat)))
  | infinite, _ => inferInstanceAs (Decidable True)

/-! ### Text -/

def text : Bound → String
  | infinite => "<inf"
  | finite value true => s!"<{value}"
  | finite value false => s!"<={value}"

end Bound

end TimedSafety
