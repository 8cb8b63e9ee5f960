import TimedSafety.Matrix.Closure
import TimedSafety.Proofs.Matrix.Points

/-!
Closure computes the canonical form. Improving a row by detours lowers cells and keeps the points
(`Relaxes`), whatever the matrix. If the diagonal cell of the pivot is `≤ 0`, its own row and column
do not change while the rows are improved, so a cell afterwards is the smaller of itself and of the
detour through the pivot (`relaxAll_cells`). A matrix whose diagonal ends up without a negative cell
therefore obeys the triangle inequality through every pivot treated so far, and through all of them
in the end; a negative diagonal cell shows that there are no points. Either way the result of
`close` has the points it started from (`close_admits`) and is canonical (`close_canonical`).
-/

set_option autoImplicit false

namespace TimedSafety

/-- A vector built entry by entry has the property that each entry has. -/
theorem Yields.ofFnM {α : Type} {may : Fault → Prop} {size : Nat}
    {entry : Fin size → Except Fault α} (post : Fin size → α → Prop)
    (hentry : ∀ i, Yields may (entry i) (post i)) :
    Yields may (Vector.ofFnM entry) fun entries ↦ ∀ i, post i (entries.get i) := by
  induction size with
  | zero =>
    rw [Vector.ofFnM_zero]
    exact fun i ↦ i.elim0
  | succ size ih =>
    rw [Vector.ofFnM_succ]
    refine (ih (fun i ↦ post i.castSucc) fun i ↦ hentry i.castSucc).bind fun front hfront ↦ ?_
    refine (hentry (Fin.last size)).bind fun last hlast ↦ ?_
    rw [Yields.pure_iff]
    intro i
    induction i using Fin.lastCases with
    | last =>
      change post _ (front.push last)[Fin.last size]
      simpa using hlast
    | cast i =>
      have hget : (front.push last).get i.castSucc = front.get i :=
        Vector.getElem_push_lt i.isLt
      rw [hget]
      exact hfront i

namespace BoundMatrix

variable {clocks : Nat} {may : Fault → Prop}

theorem cell_setRow (matrix : BoundMatrix clocks) (i row column : Index clocks)
    (entries : Vector Bound (clocks + 1)) : (matrix.setRow i entries).cell row column =
      if row = i then entries.get column else matrix.cell row column := by
  by_cases hrow : row = i
  · subst hrow
    simp [setRow, cell, Index.get_eq_getElem]
  · have hne : i.val ≠ row.val := fun heq ↦ hrow (Fin.ext heq.symm)
    simp [setRow, cell, Index.get_eq_getElem, hrow, Vector.getElem_set_ne, hne]

/-! ### One row -/

theorem relaxRow_yields {pivot : Index clocks} {through row : Vector Bound (clocks + 1)}
    (hsum : ∀ j, Bound.SumTolerated may (row.get pivot) (through.get j)) :
    Yields may (relaxRow pivot through row) fun after ↦
      ∀ j, after.get j = min ((row.get pivot).sum (through.get j)) (row.get j) := by
  unfold relaxRow
  split
  · rename_i hinfinite
    intro j
    rw [hinfinite, Bound.infinite_sum, min_eq_right (Bound.le_infinite _)]
  · refine Yields.ofFnM (fun j entry ↦
      entry = min ((row.get pivot).sum (through.get j)) (row.get j)) fun j ↦ ?_
    refine (Bound.add_yields (hsum j)).bind ?_
    rintro detour rfl
    rfl

/-- Improving a row changes only that row, to the smaller of each cell and its detour. -/
theorem relax_yields {pivot : Index clocks} {matrix : BoundMatrix clocks} {i : Index clocks}
    (hsum : ∀ j, Bound.SumTolerated may (matrix.cell i pivot) (matrix.cell pivot j)) :
    Yields may (relax pivot matrix i) fun after ↦ ∀ row column,
      after.cell row column =
        if row = i then min ((matrix.cell i pivot).sum (matrix.cell pivot column))
          (matrix.cell i column)
        else matrix.cell row column := by
  unfold relax
  refine (relaxRow_yields hsum).bind fun entries hentries ↦ ?_
  intro row column
  rw [cell_setRow, hentries]
  rfl

/-! ### Points are kept -/

/-- The second matrix has lower cells and the same points. -/
structure Relaxes (matrix after : BoundMatrix clocks) : Prop where
  cell_le : ∀ i j, after.cell i j ≤ matrix.cell i j
  admits_iff : ∀ point, after.Admits point ↔ matrix.Admits point

theorem Relaxes.refl (matrix : BoundMatrix clocks) : Relaxes matrix matrix :=
  ⟨fun _ _ ↦ Bound.le_refl _, fun _ ↦ Iff.rfl⟩

theorem Relaxes.trans {first second third : BoundMatrix clocks} (hfirst : Relaxes first second)
    (hsecond : Relaxes second third) : Relaxes first third :=
  ⟨fun i j ↦ Bound.le_trans (hsecond.cell_le i j) (hfirst.cell_le i j),
    fun point ↦ (hsecond.admits_iff point).trans (hfirst.admits_iff point)⟩

theorem relax_relaxes (hmay : Tolerant may) (pivot : Index clocks) (matrix : BoundMatrix clocks)
    (i : Index clocks) : Yields may (relax pivot matrix i) (Relaxes matrix) := by
  refine (relax_yields fun _ ↦ hmay.sum _ _).mono fun after hcells ↦ ?_
  have hle : ∀ row column, after.cell row column ≤ matrix.cell row column := by
    intro row column
    rw [hcells]
    split_ifs with hrow
    · rw [hrow]
      exact min_le_right _ _
    · exact Bound.le_refl _
  refine ⟨hle, fun point ↦ ⟨fun hadmits ↦ hadmits.of_cell_le hle, ?_⟩⟩
  intro hadmits row column
  rw [hcells]
  split_ifs with hrow
  · subst hrow
    rcases min_choice ((matrix.cell row pivot).sum (matrix.cell pivot column))
      (matrix.cell row column) with hmin | hmin
    · rw [hmin]
      exact hadmits.detour row pivot column
    · rw [hmin]
      exact hadmits row column
  · exact hadmits row column

theorem relaxAll_relaxes (hmay : Tolerant may) (matrix : BoundMatrix clocks)
    (pivot : Index clocks) : Yields may (matrix.relaxAll pivot) (Relaxes matrix) := by
  refine Yields.foldlM_const (Relaxes.refl matrix) fun i _ current hcurrent ↦ ?_
  exact (relax_relaxes hmay pivot current i).mono fun after hafter ↦ hcurrent.trans hafter

/-! ### One pivot -/

/-- Through a pivot whose diagonal cell is `≤ 0`, all cells are compared with the detours of the
matrix as it was. -/
theorem relaxAll_cells {matrix : BoundMatrix clocks} {pivot : Index clocks}
    (hsum : ∀ i j, Bound.SumTolerated may (matrix.cell i pivot) (matrix.cell pivot j))
    (hpivot : matrix.cell pivot pivot = Bound.zero) :
    Yields may (matrix.relaxAll pivot) fun after ↦ ∀ i j, after.cell i j =
      min ((matrix.cell i pivot).sum (matrix.cell pivot j)) (matrix.cell i j) := by
  have hfold : Yields may (matrix.relaxAll pivot) fun after ↦ ∀ i j, after.cell i j =
      if i ∈ Index.all clocks then
        min ((matrix.cell i pivot).sum (matrix.cell pivot j)) (matrix.cell i j)
      else matrix.cell i j := by
    refine Yields.foldlM (fun rows (current : BoundMatrix clocks) ↦ ∀ i j, current.cell i j =
      if i ∈ rows then min ((matrix.cell i pivot).sum (matrix.cell pivot j)) (matrix.cell i j)
      else matrix.cell i j) (by simp) ?_
    intro before next after _ current hcurrent
    -- Neither the row nor the column of the pivot has changed so far.
    have hrow : ∀ j, current.cell pivot j = matrix.cell pivot j := by
      intro j
      rw [hcurrent, hpivot, Bound.zero_sum, min_self, ite_self]
    have hcolumn : ∀ i, current.cell i pivot = matrix.cell i pivot := by
      intro i
      rw [hcurrent, hpivot, Bound.sum_zero, min_self, ite_self]
    have hadded : ∀ j, Bound.SumTolerated may (current.cell next pivot) (current.cell pivot j) := by
      intro j
      rw [hrow, hcolumn]
      exact hsum next j
    refine (relax_yields hadded).mono fun improved himproved i j ↦ ?_
    rw [himproved, hrow, hcolumn, hcurrent next j, hcurrent i j]
    by_cases hi : i = next
    · subst hi
      by_cases hdone : i ∈ before <;> simp [hdone]
    · simp [hi]
  refine hfold.mono fun after hafter i j ↦ ?_
  rw [hafter, if_pos (Index.mem_all i)]

/-- The triangle inequality holds through the given indices. -/
def TriangleThrough (matrix : BoundMatrix clocks) (pivots : List (Index clocks)) : Prop :=
  ∀ k ∈ pivots, ∀ i j, matrix.cell i j ≤ (matrix.cell i k).sum (matrix.cell k j)

/-- Treating one more pivot extends the triangle inequality to it. -/
theorem TriangleThrough.pivot {matrix after : BoundMatrix clocks} {pivots : List (Index clocks)}
    {pivot : Index clocks} (htriangle : matrix.TriangleThrough pivots)
    (hpivot : matrix.cell pivot pivot = Bound.zero)
    (hcells : ∀ i j, after.cell i j =
      min ((matrix.cell i pivot).sum (matrix.cell pivot j)) (matrix.cell i j)) :
    after.TriangleThrough (pivots ++ [pivot]) := by
  have hle : ∀ i j, after.cell i j ≤ matrix.cell i j := fun i j ↦ by
    rw [hcells]
    exact min_le_right _ _
  have hdetour : ∀ i j, after.cell i j ≤ (matrix.cell i pivot).sum (matrix.cell pivot j) :=
    fun i j ↦ by
      rw [hcells]
      exact min_le_left _ _
  intro k hk i j
  rcases List.mem_append.mp hk with hold | hnew
  · -- Each half of a detour through `k` is an old cell or itself a detour through the pivot.
    rcases min_choice ((matrix.cell i pivot).sum (matrix.cell pivot k)) (matrix.cell i k)
      with hfirst | hfirst <;>
    rcases min_choice ((matrix.cell k pivot).sum (matrix.cell pivot j)) (matrix.cell k j)
      with hsecond | hsecond <;>
    rw [hcells i k, hcells k j, hfirst, hsecond]
    · calc after.cell i j ≤ (matrix.cell i pivot).sum (matrix.cell pivot j) := hdetour i j
        _ = ((matrix.cell i pivot).sum (matrix.cell pivot pivot)).sum (matrix.cell pivot j) := by
          rw [hpivot, Bound.sum_zero]
        _ ≤ ((matrix.cell i pivot).sum ((matrix.cell pivot k).sum (matrix.cell k pivot))).sum
            (matrix.cell pivot j) :=
          Bound.sum_le_sum_right (Bound.sum_le_sum_left _ (htriangle k hold pivot pivot)) _
        _ = ((matrix.cell i pivot).sum (matrix.cell pivot k)).sum
            ((matrix.cell k pivot).sum (matrix.cell pivot j)) := by
          simp only [Bound.sum_assoc]
    · calc after.cell i j ≤ (matrix.cell i pivot).sum (matrix.cell pivot j) := hdetour i j
        _ ≤ (matrix.cell i pivot).sum ((matrix.cell pivot k).sum (matrix.cell k j)) :=
          Bound.sum_le_sum_left _ (htriangle k hold pivot j)
        _ = ((matrix.cell i pivot).sum (matrix.cell pivot k)).sum (matrix.cell k j) := by
          rw [Bound.sum_assoc]
    · calc after.cell i j ≤ (matrix.cell i pivot).sum (matrix.cell pivot j) := hdetour i j
        _ ≤ ((matrix.cell i k).sum (matrix.cell k pivot)).sum (matrix.cell pivot j) :=
          Bound.sum_le_sum_right (htriangle k hold i pivot) _
        _ = (matrix.cell i k).sum ((matrix.cell k pivot).sum (matrix.cell pivot j)) := by
          rw [Bound.sum_assoc]
    · exact Bound.le_trans (hle i j) (htriangle k hold i j)
  · obtain rfl := List.mem_singleton.mp hnew
    have hcolumn : after.cell i k = matrix.cell i k := by
      rw [hcells, hpivot, Bound.sum_zero, min_self]
    have hrow : after.cell k j = matrix.cell k j := by
      rw [hcells, hpivot, Bound.zero_sum, min_self]
    rw [hcolumn, hrow]
    exact hdetour i j

/-! ### All pivots -/

theorem hasNegativeDiagonal_iff (matrix : BoundMatrix clocks) :
    matrix.hasNegativeDiagonal = true ↔ ∃ i, matrix.cell i i < Bound.zero := by
  simp [hasNegativeDiagonal]

/-- After all pivots, cells are lower, points are the same, and the triangle inequality holds unless
the diagonal became negative. -/
theorem foldlM_relaxAll_yields (hmay : Tolerant may) {matrix : BoundMatrix clocks}
    (hdiagonal : ∀ i, matrix.cell i i = Bound.zero) :
    Yields may ((Index.all clocks).foldlM relaxAll matrix) fun closed ↦ Relaxes matrix closed ∧
      ((∀ i, Bound.zero ≤ closed.cell i i) → closed.TriangleThrough (Index.all clocks)) := by
  refine Yields.foldlM (fun pivots (current : BoundMatrix clocks) ↦ Relaxes matrix current ∧
    ((∀ i, Bound.zero ≤ current.cell i i) → current.TriangleThrough pivots))
    ⟨Relaxes.refl matrix, fun _ k hk ↦ by simp at hk⟩ ?_
  rintro before pivot after - current ⟨hrelaxes, htriangle⟩
  by_cases hpivot : current.cell pivot pivot = Bound.zero
  · have hcells := relaxAll_cells (fun _ _ ↦ hmay.sum _ _) hpivot
    refine ((relaxAll_relaxes hmay current pivot).and hcells).mono ?_
    rintro improved ⟨himproved, hcells⟩
    refine ⟨hrelaxes.trans himproved, fun hnonnegative ↦ ?_⟩
    refine (htriangle fun i ↦ ?_).pivot hpivot hcells
    exact Bound.le_trans (hnonnegative i) (himproved.cell_le i i)
  · refine (relaxAll_relaxes hmay current pivot).mono fun improved himproved ↦ ?_
    refine ⟨hrelaxes.trans himproved, fun hnonnegative ↦ absurd ?_ hpivot⟩
    refine Bound.le_antisymm ?_ (Bound.le_trans (hnonnegative pivot) (himproved.cell_le _ _))
    rw [← hdiagonal pivot]
    exact hrelaxes.cell_le pivot pivot

/-- Closure keeps the points of any matrix, unless a sum overflows. -/
theorem close_admits (hmay : Tolerant may) (matrix : BoundMatrix clocks) :
    Yields may matrix.close fun closed ↦ ∀ point, closed.Admits point ↔ matrix.Admits point := by
  unfold close
  split_ifs with hempty
  · exact fun _ ↦ Iff.rfl
  · have hrelaxes : Yields may ((Index.all clocks).foldlM relaxAll matrix) (Relaxes matrix) := by
      refine Yields.foldlM_const (Relaxes.refl matrix) fun pivot _ current hcurrent ↦ ?_
      exact (relaxAll_relaxes hmay current pivot).mono fun after hafter ↦ hcurrent.trans hafter
    refine hrelaxes.bind fun closed hclosed ↦ ?_
    rw [Yields.pure_iff]
    intro point
    rw [← hclosed.admits_iff]
    split_ifs with hnegative
    · obtain ⟨i, hi⟩ := (hasNegativeDiagonal_iff closed).mp hnegative
      simp [not_admits_of_diagonal hi]
    · rfl

/-- Closure of a level matrix lowers its cells until the triangle inequality holds, unless a sum
overflows. -/
theorem close_triangle (hmay : Tolerant may) {matrix : BoundMatrix clocks}
    (hmatrix : matrix.Level) : Yields may matrix.close fun closed ↦ closed = empty clocks ∨
      (∀ i, closed.cell i i = Bound.zero) ∧ (∀ i j, closed.cell i j ≤ matrix.cell i j) ∧
        ∀ i j k, closed.cell i j ≤ (closed.cell i k).sum (closed.cell k j) := by
  unfold close
  by_cases hempty : matrix.isEmpty = true
  · rw [if_pos hempty]
    exact Or.inl (hmatrix.isEmpty_iff.mp hempty)
  · rw [if_neg hempty]
    have hdiagonal := hmatrix.diagonal (Bool.not_eq_true _ ▸ hempty)
    refine (foldlM_relaxAll_yields hmay hdiagonal).bind ?_
    rintro closed ⟨hrelaxes, htriangle⟩
    rw [Yields.pure_iff]
    by_cases hnegative : closed.hasNegativeDiagonal = true
    · rw [if_pos hnegative]
      exact Or.inl rfl
    · rw [if_neg hnegative]
      rw [hasNegativeDiagonal_iff, not_exists] at hnegative
      have hnonnegative : ∀ i, Bound.zero ≤ closed.cell i i := fun i ↦ not_lt.mp (hnegative i)
      refine Or.inr ⟨fun i ↦ ?_, hrelaxes.cell_le, fun i j k ↦ ?_⟩
      · refine Bound.le_antisymm ?_ (hnonnegative i)
        rw [← hdiagonal i]
        exact hrelaxes.cell_le i i
      · exact htriangle hnonnegative k (Index.mem_all k) i j

theorem close_level (hmay : Tolerant may) {matrix : BoundMatrix clocks} (hmatrix : matrix.Level) :
    Yields may matrix.close Level :=
  (close_triangle hmay hmatrix).mono fun _ hclosed ↦ hclosed.imp id And.left

/-- Closure gives a canonical matrix, unless a sum overflows. -/
theorem close_canonical (hmay : Tolerant may) {matrix : BoundMatrix clocks}
    (hmatrix : matrix.WellFormed) : Yields may matrix.close Canonical := by
  refine (close_triangle hmay hmatrix.level).mono ?_
  rintro closed (rfl | ⟨hdiagonal, hle, htriangle⟩)
  · exact Or.inl rfl
  · exact Or.inr ⟨hmatrix.grounded_of_le hdiagonal hle, htriangle⟩

end BoundMatrix

end TimedSafety
