import Mathlib.Algebra.Order.Ring.Rat
import Mathlib.Order.Defs.LinearOrder
import Mathlib.Tactic.Linarith
import TimedSafety.Bound.Checked
import TimedSafety.Proofs.Yield

/-!
Bounds as an ordered set with a sum. Bounds are linearly ordered, their sum is commutative,
associative and monotone, and `≤ 0` is neutral for it. The differences that a bound admits grow with
the bound (`admits_of_le`), and admitted differences add up to one that the sum admits
(`Admits.sum`). A bound admits zero exactly if it is at least `≤ 0` (`admits_zero_iff`), which is
why a negative cycle of bounds has no valuations.
-/

set_option autoImplicit false

namespace TimedSafety

/-- The checked negation is the exact one, or it overflows. -/
theorem Word.negate_yields {may : Fault → Prop} (hmay : Tolerant may) (value : Int) :
    Yields may (Word.negate value) (· = -value) := by
  unfold Word.negate
  split
  · rfl
  · exact hmay _ trivial

namespace Bound

instance : LinearOrder Bound where
  le_refl := le_refl
  le_trans _ _ _ := le_trans
  le_antisymm _ _ := le_antisymm
  le_total := le_total
  lt_iff_le_not_ge first second :=
    ⟨fun hlt ↦ ⟨(le_total first second).resolve_right hlt, hlt⟩, fun hlt ↦ hlt.2⟩
  toDecidableLE := inferInstance
  min_def _ _ := rfl
  max_def _ _ := rfl

/-! ### Sum -/

theorem sum_comm (first second : Bound) : first.sum second = second.sum first := by
  cases first <;> cases second <;> simp [sum, Int.add_comm, Bool.or_comm]

theorem sum_assoc (first second third : Bound) :
    (first.sum second).sum third = first.sum (second.sum third) := by
  cases first <;> cases second <;> cases third <;> simp [sum, Int.add_assoc, Bool.or_assoc]

@[simp] theorem zero_sum (bound : Bound) : zero.sum bound = bound := by
  cases bound <;> simp [sum]

@[simp] theorem sum_zero (bound : Bound) : bound.sum zero = bound := by
  rw [sum_comm, zero_sum]

@[simp] theorem sum_infinite (bound : Bound) : bound.sum infinite = infinite := by
  cases bound <;> rfl

@[simp] theorem infinite_sum (bound : Bound) : infinite.sum bound = infinite := rfl

@[simp] theorem atMost_sum_atMost (first second : Int) :
    (atMost first).sum (atMost second) = atMost (first + second) := rfl

theorem sum_le_sum {first second first' second' : Bound} (hfirst : first ≤ first')
    (hsecond : second ≤ second') : first.sum second ≤ first'.sum second' := by
  cases first' with
  | infinite => exact le_infinite _
  | finite value' strict' =>
    cases second' with
    | infinite => exact le_infinite _
    | finite other' otherStrict' =>
      cases first with
      | infinite => exact absurd hfirst (not_infinite_le_finite _ _)
      | finite value strict =>
        cases second with
        | infinite => exact absurd hsecond (not_infinite_le_finite _ _)
        | finite other otherStrict =>
          simp only [sum, finite_le_finite] at *
          grind

theorem sum_le_sum_left {second second' : Bound} (first : Bound) (hsecond : second ≤ second') :
    first.sum second ≤ first.sum second' := sum_le_sum (le_refl first) hsecond

theorem sum_le_sum_right {first first' : Bound} (hfirst : first ≤ first') (second : Bound) :
    first.sum second ≤ first'.sum second := sum_le_sum hfirst (le_refl second)

/-- Adding a bound that is at most `≤ 0` does not raise a bound. -/
theorem sum_le_of_le_zero {first second : Bound} (hsecond : second ≤ zero) :
    first.sum second ≤ first := by
  calc first.sum second ≤ first.sum zero := sum_le_sum_left first hsecond
    _ = first := sum_zero first

/-- The sum fits a word, or its overflow is an admitted fault. -/
def SumTolerated (may : Fault → Prop) (first second : Bound) : Prop :=
  ¬ (first.sum second).Fits → may (.boundOverflow first second)

/-- The checked sum is the exact one, or it overflows. -/
theorem add_yields {may : Fault → Prop} {first second : Bound}
    (hsum : SumTolerated may first second) :
    Yields may (first.add second) (· = first.sum second) := by
  unfold add
  split_ifs with hfits
  · rfl
  · exact hsum hfits

end Bound

theorem Tolerant.sum {may : Fault → Prop} (hmay : Tolerant may) (first second : Bound) :
    Bound.SumTolerated may first second := fun _ ↦ hmay _ trivial

namespace Bound

/-! ### Admitted differences -/

theorem admits_of_le {first second : Bound} {difference : Rat} (hle : first ≤ second)
    (hadmits : first.Admits difference) : second.Admits difference := by
  cases second with
  | infinite => trivial
  | finite value strict =>
    cases first with
    | infinite => exact absurd hle (not_infinite_le_finite _ _)
    | finite other otherStrict =>
      rw [finite_le_finite] at hle
      rcases hle with hlt | ⟨rfl, hstrict⟩
      · have hcast : (other : Rat) + 1 ≤ value := by exact_mod_cast hlt
        cases strict <;> cases otherStrict <;> simp only [Admits] at * <;> linarith
      · cases strict <;> cases otherStrict <;> simp_all [Admits, le_of_lt]

/-- Smaller differences are admitted as well. -/
theorem Admits.of_le {bound : Bound} {difference smaller : Rat} (hadmits : bound.Admits difference)
    (hle : smaller ≤ difference) : bound.Admits smaller := by
  cases bound with
  | infinite => trivial
  | finite value strict => cases strict <;> simp only [Admits] at * <;> linarith

theorem Admits.sum {first second : Bound} {difference other : Rat}
    (hfirst : first.Admits difference) (hsecond : second.Admits other) :
    (first.sum second).Admits (difference + other) := by
  cases first with
  | infinite => trivial
  | finite value strict =>
    cases second with
    | infinite => cases strict <;> trivial
    | finite value' strict' =>
      cases strict <;> cases strict' <;> simp only [Admits, Bound.sum, Bool.or_self, Bool.or_true,
        Bool.or_false] at * <;> push_cast <;> linarith

/-- A constant moves the admitted differences by its value. -/
@[simp] theorem sum_atMost_admits (bound : Bound) (offset : Int) (difference : Rat) :
    (bound.sum (atMost offset)).Admits difference ↔ bound.Admits (difference - offset) := by
  cases bound with
  | infinite => simp [Admits]
  | finite value strict =>
    cases strict <;> simp only [Bound.sum, Admits, Bool.or_false] <;> push_cast <;>
      constructor <;> intro _ <;> linarith

theorem admits_zero_iff {bound : Bound} : bound.Admits 0 ↔ zero ≤ bound := by
  cases bound with
  | infinite => simp [Admits, le_infinite]
  | finite value strict =>
    rw [finite_le_finite]
    cases strict
    · simp [Admits, le_iff_lt_or_eq, eq_comm]
    · simp [Admits]

/-- A bound below `≤ 0` does not admit zero. -/
theorem not_admits_zero {bound : Bound} (hlt : bound < zero) : ¬ bound.Admits 0 := by
  rw [admits_zero_iff]
  exact not_le_of_gt hlt

end Bound

end TimedSafety
