import Mathlib.Order.Lattice
import TimedSafety.Matrix.Operator
import TimedSafety.Proofs.BoundOrder

/-!
The points of a difference bound matrix. A point gives a value to every index, the reference
included, and lies in the matrix if every difference obeys its cell. Only differences count, so a
point may be moved as a whole.

A matrix that an operation works on is well formed: it is the empty form, or its diagonal is `≤ 0`
throughout and no clock is below the reference. It is canonical if it is the empty form or moreover
closed, that is, no cell exceeds the sum along a detour. Tightening a cell keeps a matrix well
formed, and its points are exactly those that also obey the new bound (`constrain_admits`).
-/

set_option autoImplicit false

namespace TimedSafety.BoundMatrix

variable {clocks : Nat}

/-- Every difference of the point obeys its cell. -/
def Admits (matrix : BoundMatrix clocks) (point : Index clocks → Rat) : Prop :=
  ∀ i j, (matrix.cell i j).Admits (point i - point j)

/-- The diagonal is `≤ 0`, and no clock is below the reference. -/
structure Grounded (matrix : BoundMatrix clocks) : Prop where
  diagonal : ∀ i, matrix.cell i i = Bound.zero
  nonnegative : ∀ i, matrix.cell Index.reference i ≤ Bound.zero

/-- No cell exceeds the sum along a detour. -/
structure Closed (matrix : BoundMatrix clocks) : Prop extends Grounded matrix where
  triangle : ∀ i j k, matrix.cell i j ≤ (matrix.cell i k).sum (matrix.cell k j)

/-- The empty form, or a matrix whose diagonal is `≤ 0`. Clocks may be below the reference. -/
def Level (matrix : BoundMatrix clocks) : Prop :=
  matrix = empty clocks ∨ ∀ i, matrix.cell i i = Bound.zero

/-- The empty form, or a grounded matrix. -/
def WellFormed (matrix : BoundMatrix clocks) : Prop := matrix = empty clocks ∨ matrix.Grounded

/-- The empty form, or a closed matrix. -/
def Canonical (matrix : BoundMatrix clocks) : Prop := matrix = empty clocks ∨ matrix.Closed

theorem Canonical.wellFormed {matrix : BoundMatrix clocks} (hcanonical : matrix.Canonical) :
    matrix.WellFormed :=
  hcanonical.imp id Closed.toGrounded

theorem WellFormed.level {matrix : BoundMatrix clocks} (hmatrix : matrix.WellFormed) :
    matrix.Level :=
  hmatrix.imp id Grounded.diagonal

/-! ### Points -/

theorem Admits.of_cell_le {matrix other : BoundMatrix clocks} {point : Index clocks → Rat}
    (hadmits : matrix.Admits point) (hle : ∀ i j, matrix.cell i j ≤ other.cell i j) :
    other.Admits point := fun i j ↦ Bound.admits_of_le (hle i j) (hadmits i j)

/-- A detour between two indices bounds their difference. -/
theorem Admits.detour {matrix : BoundMatrix clocks} {point : Index clocks → Rat}
    (hadmits : matrix.Admits point) (i k j : Index clocks) :
    ((matrix.cell i k).sum (matrix.cell k j)).Admits (point i - point j) := by
  have hsum := (hadmits i k).sum (hadmits k j)
  rwa [sub_add_sub_cancel] at hsum

/-- A matrix with a negative diagonal cell has no points. -/
theorem not_admits_of_diagonal {matrix : BoundMatrix clocks} {point : Index clocks → Rat}
    {i : Index clocks} (hnegative : matrix.cell i i < Bound.zero) : ¬ matrix.Admits point := by
  intro hadmits
  have hzero := hadmits i i
  rw [sub_self] at hzero
  exact Bound.not_admits_zero hnegative hzero

@[simp] theorem not_admits_empty (point : Index clocks → Rat) : ¬ (empty clocks).Admits point := by
  apply not_admits_of_diagonal (i := Index.reference)
  rw [cell_empty]
  decide

/-- Clocks of a grounded matrix are not below the reference. -/
theorem Grounded.reference_le {matrix : BoundMatrix clocks} (hgrounded : matrix.Grounded)
    {point : Index clocks → Rat} (hadmits : matrix.Admits point) (i : Index clocks) :
    point Index.reference ≤ point i := by
  have hdifference : Bound.zero.Admits (point Index.reference - point i) :=
    Bound.admits_of_le (hgrounded.nonnegative i) (hadmits _ _)
  simp only [Bound.Admits, Int.cast_zero] at hdifference
  linarith

/-! ### The empty form -/

theorem Grounded.isEmpty_eq {matrix : BoundMatrix clocks} (hgrounded : matrix.Grounded) :
    matrix.isEmpty = false := by
  simp [isEmpty, hgrounded.diagonal]

/-- One cell tells whether a level matrix is the empty form. -/
theorem Level.isEmpty_iff {matrix : BoundMatrix clocks} (hmatrix : matrix.Level) :
    matrix.isEmpty = true ↔ matrix = empty clocks := by
  rcases hmatrix with rfl | hdiagonal
  · simp
  · constructor
    · intro hempty
      simp [isEmpty, hdiagonal] at hempty
    · rintro rfl
      exact isEmpty_empty

theorem Level.diagonal {matrix : BoundMatrix clocks} (hmatrix : matrix.Level)
    (hempty : matrix.isEmpty = false) : ∀ i, matrix.cell i i = Bound.zero := by
  refine hmatrix.resolve_left ?_
  rintro rfl
  simp at hempty

theorem WellFormed.isEmpty_iff {matrix : BoundMatrix clocks} (hmatrix : matrix.WellFormed) :
    matrix.isEmpty = true ↔ matrix = empty clocks := hmatrix.level.isEmpty_iff

theorem WellFormed.grounded {matrix : BoundMatrix clocks} (hmatrix : matrix.WellFormed)
    (hempty : matrix.isEmpty = false) : matrix.Grounded := by
  refine hmatrix.resolve_left ?_
  rintro rfl
  simp at hempty

theorem ne_empty_of_le {matrix lower : BoundMatrix clocks}
    (hdiagonal : ∀ i, lower.cell i i = Bound.zero)
    (hle : ∀ i j, lower.cell i j ≤ matrix.cell i j) : matrix ≠ empty clocks := by
  rintro rfl
  have hcorner := hle Index.reference Index.reference
  rw [hdiagonal, cell_empty] at hcorner
  exact absurd hcorner (by decide)

/-- Below a well-formed matrix, a matrix is grounded as soon as its diagonal is `≤ 0`. -/
theorem WellFormed.grounded_of_le {matrix lower : BoundMatrix clocks}
    (hmatrix : matrix.WellFormed) (hdiagonal : ∀ i, lower.cell i i = Bound.zero)
    (hle : ∀ i j, lower.cell i j ≤ matrix.cell i j) : lower.Grounded := by
  have hgrounded := hmatrix.resolve_left (ne_empty_of_le hdiagonal hle)
  exact ⟨hdiagonal, fun i ↦ Bound.le_trans (hle _ _) (hgrounded.nonnegative i)⟩

theorem Canonical.closed {matrix : BoundMatrix clocks} (hmatrix : matrix.Canonical)
    (hempty : matrix.isEmpty = false) : matrix.Closed := by
  refine hmatrix.resolve_left ?_
  rintro rfl
  simp at hempty

/-- A matrix with a point is not the empty form. -/
theorem Admits.isEmpty_eq {matrix : BoundMatrix clocks} {point : Index clocks → Rat}
    (hadmits : matrix.Admits point) : matrix.isEmpty = false := by
  by_contra hempty
  rw [Bool.not_eq_false] at hempty
  exact not_admits_of_diagonal (of_decide_eq_true hempty) hadmits

/-! ### Base matrices -/

theorem closed_top : (top clocks).Closed where
  diagonal i := by simp
  nonnegative i := by simp
  triangle i j k := by
    simp only [cell_top]
    by_cases hik : i = k
    · subst hik
      simp
    · by_cases hi : i = Index.reference
      · subst hi
        simp only [or_true, if_true, Bound.zero_sum]
        split_ifs
        · exact Bound.le_refl _
        · exact Bound.le_infinite _
      · simp [hik, hi, Bound.le_infinite]

theorem closed_zero : (zero clocks).Closed where
  diagonal i := by simp
  nonnegative i := by simp
  triangle i j k := by simp

theorem top_admits_iff (point : Index clocks → Rat) :
    (top clocks).Admits point ↔ ∀ i, point Index.reference ≤ point i := by
  constructor
  · exact fun hadmits i ↦ closed_top.reference_le hadmits i
  · intro hnonnegative i j
    rw [cell_top]
    split_ifs with hcell
    · rcases hcell with rfl | rfl
      · simp [Bound.Admits]
      · have := hnonnegative j
        simp only [Bound.Admits, Int.cast_zero]
        linarith
    · trivial

theorem zero_admits_iff (point : Index clocks → Rat) :
    (zero clocks).Admits point ↔ ∀ i, point i = point Index.reference := by
  constructor
  · intro hadmits i
    have hupper := hadmits i Index.reference
    have hlower := hadmits Index.reference i
    simp only [cell_zero, Bound.Admits, Int.cast_zero] at hupper hlower
    linarith
  · intro hequal i j
    rw [cell_zero, hequal i, hequal j, sub_self]
    simp [Bound.Admits]

/-! ### Tightening -/

/-- What tightening does to the cells: nothing to a matrix in the empty form, everything if the
bound contradicts the opposite cell, and else the smaller of bound and cell. -/
theorem constrain_cells {may : Fault → Prop} {matrix : BoundMatrix clocks} {i j : Index clocks}
    {bound : Bound} (hsum : Bound.SumTolerated may bound (matrix.cell j i)) :
    Yields may (matrix.constrain i j bound) fun after ↦
      (matrix.isEmpty = true ∧ after = matrix) ∨
      (bound.sum (matrix.cell j i) < Bound.zero ∧ after = empty clocks) ∨
      (Bound.zero ≤ bound.sum (matrix.cell j i) ∧ ∀ row column, after.cell row column =
        if row = i ∧ column = j then min bound (matrix.cell i j) else matrix.cell row column) := by
  unfold constrain
  by_cases hempty : matrix.isEmpty = true
  · rw [if_pos hempty]
    exact Or.inl ⟨hempty, rfl⟩
  · rw [if_neg hempty]
    refine (Bound.add_yields hsum).bind ?_
    rintro cycle rfl
    rw [Yields.pure_iff]
    split_ifs with hcycle hlt
    · exact Or.inr (Or.inl ⟨hcycle, rfl⟩)
    · refine Or.inr (Or.inr ⟨not_lt.mp hcycle, fun row column ↦ ?_⟩)
      rw [cell_setCell, min_eq_left (le_of_lt hlt)]
    · refine Or.inr (Or.inr ⟨not_lt.mp hcycle, fun row column ↦ ?_⟩)
      split_ifs with hcell
      · rw [hcell.1, hcell.2, min_eq_right (not_lt.mp hlt)]
      · rfl

/-- Tightening keeps the points that obey the new bound. -/
theorem constrain_admits {may : Fault → Prop} (hmay : Tolerant may) (matrix : BoundMatrix clocks)
    (i j : Index clocks) (bound : Bound) : Yields may (matrix.constrain i j bound) fun after ↦
      ∀ point, after.Admits point ↔ matrix.Admits point ∧ bound.Admits (point i - point j) := by
  refine (constrain_cells (hmay.sum _ _)).mono ?_
  rintro after (⟨hempty, rfl⟩ | ⟨hcycle, rfl⟩ | ⟨-, hcells⟩) point
  · have hnone : ¬ after.Admits point := fun hadmits ↦ by
      rw [hadmits.isEmpty_eq] at hempty
      contradiction
    simp [hnone]
  · simp only [not_admits_empty, false_iff, not_and]
    intro hadmits hbound
    have hzero := hbound.sum (hadmits j i)
    rw [sub_add_sub_cancel, sub_self] at hzero
    exact Bound.not_admits_zero hcycle hzero
  · constructor
    · intro hafter
      refine ⟨hafter.of_cell_le fun row column ↦ ?_, ?_⟩
      · rw [hcells]
        split_ifs with hcell
        · rw [hcell.1, hcell.2]
          exact min_le_right _ _
        · exact Bound.le_refl _
      · have hcell := hafter i j
        rw [hcells, if_pos ⟨rfl, rfl⟩] at hcell
        exact Bound.admits_of_le (min_le_left _ _) hcell
    · rintro ⟨hadmits, hbound⟩ row column
      rw [hcells]
      split_ifs with hcell
      · rw [hcell.1, hcell.2]
        rcases min_choice bound (matrix.cell i j) with hmin | hmin
        · rw [hmin]
          exact hbound
        · rw [hmin]
          exact hadmits i j
      · exact hadmits row column

/-- Tightening keeps a matrix level. -/
theorem constrain_level {may : Fault → Prop} (hmay : Tolerant may)
    {matrix : BoundMatrix clocks} (hmatrix : matrix.Level) (i j : Index clocks)
    (bound : Bound) : Yields may (matrix.constrain i j bound) Level := by
  refine (constrain_cells (hmay.sum _ _)).mono ?_
  rintro after (⟨-, rfl⟩ | ⟨-, rfl⟩ | ⟨hcycle, hcells⟩)
  · exact hmatrix
  · exact Or.inl rfl
  · rcases hmatrix with rfl | hdiagonal
    · -- Cells of the empty form leave only bounds above them, so nothing changes.
      refine Or.inl (ext_cell fun row column ↦ ?_)
      rw [hcells]
      split_ifs
      · rw [cell_empty, cell_empty, min_eq_right]
        rw [cell_empty] at hcycle
        exact Bound.le_trans (by decide) (Bound.le_trans hcycle
          (Bound.sum_le_of_le_zero (by decide)))
      · rfl
    · refine Or.inr fun row ↦ ?_
      rw [hcells]
      split_ifs with hcell
      · -- On the diagonal the bound itself is the cycle.
        obtain ⟨rfl, rfl⟩ := hcell
        rw [hdiagonal] at hcycle ⊢
        rw [Bound.sum_zero] at hcycle
        exact min_eq_right hcycle
      · exact hdiagonal row

/-- Tightening leaves no cell above the one before, nor the tightened one above the bound. -/
theorem constrain_le {may : Fault → Prop} (hmay : Tolerant may) {matrix : BoundMatrix clocks}
    (hmatrix : matrix.Level) (i j : Index clocks) (bound : Bound) :
    Yields may (matrix.constrain i j bound) fun after ↦ after = empty clocks ∨
      (∀ row column, after.cell row column ≤ matrix.cell row column) ∧
        after.cell i j ≤ bound := by
  refine (constrain_cells (hmay.sum _ _)).mono ?_
  rintro after (⟨hempty, rfl⟩ | ⟨-, rfl⟩ | ⟨-, hcells⟩)
  · exact Or.inl (hmatrix.isEmpty_iff.mp hempty)
  · exact Or.inl rfl
  · refine Or.inr ⟨fun row column ↦ ?_, ?_⟩
    · rw [hcells]
      split_ifs with hcell
      · rw [hcell.1, hcell.2]
        exact min_le_right _ _
      · exact Bound.le_refl _
    · rw [hcells, if_pos ⟨rfl, rfl⟩]
      exact min_le_left _ _

/-- Tightening keeps a matrix well formed. -/
theorem constrain_wellFormed {may : Fault → Prop} (hmay : Tolerant may)
    {matrix : BoundMatrix clocks} (hmatrix : matrix.WellFormed) (i j : Index clocks)
    (bound : Bound) : Yields may (matrix.constrain i j bound) WellFormed := by
  refine ((constrain_level hmay hmatrix.level i j bound).and
    (constrain_le hmay hmatrix.level i j bound)).mono ?_
  rintro after ⟨rfl | hdiagonal, hle⟩
  · exact Or.inl rfl
  · exact hle.imp id fun hle ↦ hmatrix.grounded_of_le hdiagonal hle.1

end TimedSafety.BoundMatrix
