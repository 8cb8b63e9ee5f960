import Mathlib.Logic.Function.Basic
import TimedSafety.Constraint
import TimedSafety.Proofs.Matrix.Operators
import TimedSafety.Zone.Draft

/-!
Valuations as points. The point of a valuation gives zero to the reference and to every clock its
value; a valuation is determined by its point. Writing a clock updates the point at one index,
waiting moves all clocks, and reading a clock reads the point. So what a constraint says of a
valuation is a statement about one difference of its point (`Constraint.holds_unit_iff` and
`Constraint.holds_difference_iff`).
-/

set_option autoImplicit false

namespace TimedSafety

namespace Valuation

/-- The value at every index, zero at the reference. -/
def point (clocks : Nat) (valuation : Valuation) : Index clocks → Rat :=
  fun i ↦ valuation.coordinate i

@[simp] theorem point_reference (clocks : Nat) (valuation : Valuation) :
    valuation.point clocks Index.reference = 0 := rfl

@[simp] theorem clocks_zero (clocks : Nat) : (zero clocks).clocks = clocks := by
  simp [zero, Valuation.clocks]

@[simp] theorem clocks_later (valuation : Valuation) (duration : Rat) :
    (valuation.later duration).clocks = valuation.clocks := by
  simp [later, Valuation.clocks]

theorem coordinate_succ (valuation : Valuation) {row : Nat}
    (hrow : row < valuation.values.length) :
    valuation.coordinate (row + 1) = valuation.values[row] := by
  simp [coordinate, hrow]

/-- Valuations over the same clocks with the same point are equal. -/
theorem eq_of_point_eq {clocks : Nat} {first second : Valuation}
    (hfirst : first.clocks = clocks) (hsecond : second.clocks = clocks)
    (hpoint : first.point clocks = second.point clocks) : first = second := by
  obtain ⟨firstValues⟩ := first
  obtain ⟨secondValues⟩ := second
  congr 1
  refine List.ext_getElem (hfirst.trans hsecond.symm) fun row hrow hrow' ↦ ?_
  have hlt : row < clocks := hfirst ▸ hrow
  have hcoordinate := congrFun hpoint ⟨row + 1, Nat.succ_lt_succ hlt⟩
  simp only [Valuation.point] at hcoordinate
  rwa [coordinate_succ _ hrow, coordinate_succ _ hrow'] at hcoordinate

@[simp] theorem point_zero (clocks : Nat) : (zero clocks).point clocks = fun _ ↦ 0 := by
  funext i
  induction i using Fin.cases with
  | zero => rfl
  | succ i =>
    have hi : i.val < (zero clocks).values.length := by simp [zero]
    rw [Valuation.point, Fin.val_succ, coordinate_succ _ hi]
    simp [zero]

/-- Waiting moves all clocks and leaves the reference. -/
theorem point_later {clocks : Nat} {valuation : Valuation} (hclocks : valuation.clocks = clocks)
    (duration : Rat) : (valuation.later duration).point clocks =
      BoundMatrix.delayed (valuation.point clocks) duration := by
  funext i
  induction i using Fin.cases with
  | zero => rfl
  | succ i =>
    have hi : i.val < valuation.values.length := hclocks ▸ i.isLt
    have hlater : i.val < (valuation.later duration).values.length := by simpa [later] using hi
    rw [BoundMatrix.delayed_of_ne _ _ (Fin.succ_ne_zero i), Valuation.point, Valuation.point,
      Fin.val_succ, coordinate_succ _ hlater, coordinate_succ _ hi]
    simp [later]

/-! ### Reading and writing clocks -/

theorem indexOf_yields {may : Fault → Prop} {clocks : Nat} {clock : Clock}
    (hclock : clocks < clock.id → may (.clockOutOfRange clock clocks)) :
    Yields may (Draft.indexOf clocks clock) fun i ↦ i.val = clock.id := by
  unfold Draft.indexOf
  split
  · rfl
  · rename_i hrange
    exact hclock (not_le.mp hrange)

/-- The index of a clock is not that of the reference. -/
theorem index_ne_reference {clocks : Nat} {clock : Clock} {i : Index clocks}
    (hi : i.val = clock.id) : i ≠ Index.reference := by
  rintro rfl
  exact absurd hi clock.id_pos.ne

theorem get_eq_ok_iff {clocks : Nat} {valuation : Valuation} (hclocks : valuation.clocks = clocks)
    {clock : Clock} {i : Index clocks} (hi : i.val = clock.id) (value : Rat) :
    valuation.get clock = .ok value ↔ value = valuation.point clocks i := by
  have hpos := clock.id_pos
  have hlt : clock.id - 1 < valuation.values.length := by
    have := i.isLt
    change clock.id - 1 < valuation.clocks
    omega
  have hpoint : valuation.point clocks i = valuation.values[clock.id - 1] := by
    rw [← coordinate_succ valuation hlt, Nat.sub_add_cancel hpos, ← hi]
    rfl
  rw [get, List.getElem?_eq_getElem hlt, hpoint]
  simp [eq_comm]

/-- The valuation with one clock set, whatever the value. -/
def write (valuation : Valuation) (clock : Clock) (value : Rat) : Valuation :=
  ⟨valuation.values.set (clock.id - 1) value⟩

@[simp] theorem clocks_write (valuation : Valuation) (clock : Clock) (value : Rat) :
    (valuation.write clock value).clocks = valuation.clocks := by
  simp [write, Valuation.clocks]

theorem set_eq_ok_iff {valuation after : Valuation} {clock : Clock}
    (hclock : clock.id ≤ valuation.clocks) (value : Rat) :
    valuation.set clock value = .ok after ↔ 0 ≤ value ∧ after = valuation.write clock value := by
  unfold set
  by_cases hvalue : value < 0
  · simp [hvalue]
  · rw [if_neg hvalue, if_pos hclock]
    simp [not_lt.mp hvalue, write, eq_comm]

/-- Writing a clock updates the point at its index. -/
theorem point_write {clocks : Nat} {valuation : Valuation} (hclocks : valuation.clocks = clocks)
    {clock : Clock} {i : Index clocks} (hi : i.val = clock.id) (value : Rat) :
    (valuation.write clock value).point clocks =
      Function.update (valuation.point clocks) i value := by
  have hpos := clock.id_pos
  funext j
  induction j using Fin.cases with
  | zero => rw [Function.update_of_ne (Ne.symm (index_ne_reference hi))]; rfl
  | succ j =>
    have hj : j.val < valuation.values.length := hclocks ▸ j.isLt
    have hj' : j.val < (valuation.write clock value).values.length := by simpa [write] using hj
    rw [Valuation.point, Fin.val_succ, coordinate_succ _ hj']
    by_cases hij : j.succ = i
    · subst hij
      have hrow : clock.id - 1 = j.val := by
        rw [← hi, Fin.val_succ, Nat.add_sub_cancel]
      simp [write, hrow]
    · have hrow : clock.id - 1 ≠ j.val := by
        intro hrow
        refine hij (Fin.ext ?_)
        rw [Fin.val_succ, hi]
        omega
      rw [Function.update_of_ne hij, Valuation.point, Fin.val_succ, coordinate_succ _ hj]
      simp [write, List.getElem_set_ne hrow]

end Valuation

/-! ### Constraints -/

/-- The clocks of a constraint are among the given number of them. -/
def Constraint.Within (constraint : Constraint) (clocks : Nat) : Prop :=
  ∀ clock ∈ constraint.clocks, clock.id ≤ clocks

theorem Constraint.holds_unit_iff {clocks : Nat} {valuation : Valuation}
    (hclocks : valuation.clocks = clocks) {left : Clock} {i : Index clocks}
    (hi : i.val = left.id) (comparison : Comparison) (bound : Int) :
    (Constraint.compare left none comparison bound).holds valuation = .ok true ↔
      comparison.test (valuation.point clocks i - valuation.point clocks Index.reference) bound =
        true := by
  have hget := (Valuation.get_eq_ok_iff hclocks hi _).mpr rfl
  simp only [holds, hget, Valuation.point_reference, sub_zero]
  change Except.ok _ = Except.ok _ ↔ _
  rw [Except.ok.injEq]

theorem Constraint.holds_difference_iff {clocks : Nat} {valuation : Valuation}
    (hclocks : valuation.clocks = clocks) {left right : Clock} {i j : Index clocks}
    (hi : i.val = left.id) (hj : j.val = right.id) (comparison : Comparison) (bound : Int) :
    (Constraint.compare left (some right) comparison bound).holds valuation = .ok true ↔
      comparison.test (valuation.point clocks i - valuation.point clocks j) bound = true := by
  have hleft := (Valuation.get_eq_ok_iff hclocks hi _).mpr rfl
  have hright := (Valuation.get_eq_ok_iff hclocks hj _).mpr rfl
  simp only [holds, hleft, hright]
  change Except.ok _ = Except.ok _ ↔ _
  rw [Except.ok.injEq]

end TimedSafety
