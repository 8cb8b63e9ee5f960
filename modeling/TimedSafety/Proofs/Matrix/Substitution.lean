import TimedSafety.Proofs.Matrix.Operators

/-!
Setting, copying and moving a clock as one operation. In `substitute matrix source offset` every
index `i` has the value of index `source i` plus `offset i`: a reset takes the reference and a
constant, a copy another clock and nothing, a shift the clock itself and a constant. The triangle
inequality carries over, because offsets along a detour add up to the offset between its ends.

A reset and a copy lose one index, whose former value is found again between the bounds that the
others leave; a shift loses none.
-/

set_option autoImplicit false

namespace TimedSafety.BoundMatrix

variable {clocks : Nat} {may : Fault → Prop} {matrix : BoundMatrix clocks}

/-- Every index takes the value of another one plus an offset. -/
def substitute (matrix : BoundMatrix clocks) (source : Index clocks → Index clocks)
    (offset : Index clocks → Int) : BoundMatrix clocks :=
  tabulate fun i j ↦ (matrix.cell (source i) (source j)).sum (.atMost (offset i - offset j))

@[simp] theorem cell_substitute (matrix : BoundMatrix clocks)
    (source : Index clocks → Index clocks) (offset : Index clocks → Int) (i j : Index clocks) :
    (matrix.substitute source offset).cell i j =
      (matrix.cell (source i) (source j)).sum (.atMost (offset i - offset j)) := by
  simp [substitute]

theorem substitute_diagonal (hgrounded : matrix.Grounded) (source : Index clocks → Index clocks)
    (offset : Index clocks → Int) (i : Index clocks) :
    (matrix.substitute source offset).cell i i = Bound.zero := by
  simp [hgrounded.diagonal]

theorem substitute_triangle (hclosed : matrix.Closed) (source : Index clocks → Index clocks)
    (offset : Index clocks → Int) (i j k : Index clocks) :
    (matrix.substitute source offset).cell i j ≤
      ((matrix.substitute source offset).cell i k).sum
        ((matrix.substitute source offset).cell k j) := by
  simp only [cell_substitute]
  calc (matrix.cell (source i) (source j)).sum (.atMost (offset i - offset j))
      ≤ ((matrix.cell (source i) (source k)).sum (matrix.cell (source k) (source j))).sum
          (.atMost (offset i - offset j)) :=
        Bound.sum_le_sum_right (hclosed.triangle _ _ _) _
    _ = ((matrix.cell (source i) (source k)).sum (matrix.cell (source k) (source j))).sum
          ((Bound.atMost (offset i - offset k)).sum (.atMost (offset k - offset j))) := by
        rw [Bound.atMost_sum_atMost, sub_add_sub_cancel]
    _ = ((matrix.cell (source i) (source k)).sum (.atMost (offset i - offset k))).sum
          ((matrix.cell (source k) (source j)).sum (.atMost (offset k - offset j))) := by
        rw [Bound.sum_assoc, ← Bound.sum_assoc (matrix.cell (source k) (source j)),
          Bound.sum_comm (matrix.cell (source k) (source j)), Bound.sum_assoc,
          ← Bound.sum_assoc (matrix.cell (source i) (source k))]

theorem Closed.substitute (hclosed : matrix.Closed) {source : Index clocks → Index clocks}
    {offset : Index clocks → Int} (hreference : source Index.reference = Index.reference)
    (hoffset : ∀ i, offset Index.reference ≤ offset i) :
    (matrix.substitute source offset).Closed where
  diagonal := substitute_diagonal hclosed.toGrounded source offset
  nonnegative i := by
    rw [cell_substitute, hreference]
    calc (matrix.cell Index.reference (source i)).sum
          (.atMost (offset Index.reference - offset i))
        ≤ Bound.zero.sum (.atMost (offset Index.reference - offset i)) :=
          Bound.sum_le_sum_right (hclosed.nonnegative _) _
      _ = .atMost (offset Index.reference - offset i) := Bound.zero_sum _
      _ ≤ Bound.zero := by
        rw [Bound.finite_le_finite]
        rcases (hoffset i).lt_or_eq with hlt | heq
        · exact Or.inl (by omega)
        · exact Or.inr ⟨by omega, Or.inr rfl⟩
  triangle := substitute_triangle hclosed source offset

theorem Admits.substitute {point : Index clocks → Rat} (hadmits : matrix.Admits point)
    (source : Index clocks → Index clocks) (offset : Index clocks → Int) :
    (matrix.substitute source offset).Admits fun i ↦ point (source i) + offset i := by
  intro i j
  rw [cell_substitute, Bound.sum_atMost_admits]
  convert hadmits (source i) (source j) using 1
  push_cast
  ring

/-! ### Assigning one clock -/

/-- The clock `x` takes the value of index `y` plus a constant, all others keep theirs. -/
def assignClock (matrix : BoundMatrix clocks) (x y : Index clocks) (value : Int) :
    BoundMatrix clocks :=
  matrix.substitute (fun i ↦ if i = x then y else i) (fun i ↦ if i = x then value else 0)

theorem Closed.assignClock (hclosed : matrix.Closed) {x y : Index clocks}
    (hx : x ≠ Index.reference) {value : Int} (hvalue : 0 ≤ value) :
    (matrix.assignClock x y value).Closed := by
  refine hclosed.substitute (if_neg (Ne.symm hx)) fun i ↦ ?_
  rw [if_neg (Ne.symm hx)]
  split_ifs
  · exact hvalue
  · exact Int.le_refl 0

/-- The points after an assignment agree with one of the matrix on all other indices, and give the
clock its new value. -/
theorem assignClock_admits_iff (hclosed : matrix.Closed) {x y : Index clocks}
    (hx : x ≠ Index.reference) (hxy : x ≠ y) (value : Int) (point : Index clocks → Rat) :
    (matrix.assignClock x y value).Admits point ↔
      point x = point y + value ∧ ∃ former, matrix.Admits (Function.update point x former) := by
  have hyx : y ≠ x := Ne.symm hxy
  constructor
  · intro hadmits
    refine ⟨?_, ?_⟩
    · have hupper := hadmits x y
      have hlower := hadmits y x
      simp only [assignClock, cell_substitute, if_true, if_neg hyx, hclosed.diagonal,
        Bound.zero_sum, Bound.Admits] at hupper hlower
      push_cast at hupper hlower
      linarith
    · obtain ⟨former, -, hformer⟩ := exists_update_admits hclosed hx point (by
        intro i j hi hj
        have hcell := hadmits i j
        simpa [assignClock, if_neg hi, if_neg hj] using hcell)
      exact ⟨former, hformer⟩
  · rintro ⟨hvalue, former, hadmits⟩
    unfold assignClock
    convert hadmits.substitute (fun i ↦ if i = x then y else i)
      (fun i ↦ if i = x then value else 0) using 1
    funext i
    by_cases hi : i = x
    · subst hi
      simp [Function.update_of_ne hyx, hvalue]
    · simp [hi]

/-- Row and column entries of an index, each the result of a computation. -/
theorem crossEntries_yields {x : Index clocks}
    {entry : Index clocks → Except Fault (Bound × Bound)} (row column : Index clocks → Bound)
    (hentry : ∀ i, i ≠ x → Yields may (entry i) (· = (row i, column i))) :
    Yields may (crossEntries x entry) fun entries ↦
      ∀ i, i ≠ x → entries.get i = (row i, column i) := by
  refine Yields.ofFnM (fun i found ↦ i ≠ x → found = (row i, column i)) fun i ↦ ?_
  by_cases hi : i = x
  · rw [if_pos hi]
    exact fun hne ↦ absurd hi hne
  · rw [if_neg hi]
    exact (hentry i hi).mono fun _ hfound _ ↦ hfound

/-- Replacing row and column of an index by those of another matrix gives that matrix, if the two
agree everywhere else. -/
theorem replaceCross_eq {other : BoundMatrix clocks} {x : Index clocks}
    {row column : Index clocks → Bound}
    (hdiagonal : ∀ i, matrix.cell i i = other.cell i i)
    (hrow : ∀ j, j ≠ x → row j = other.cell x j)
    (hcolumn : ∀ i, i ≠ x → column i = other.cell i x)
    (hothers : ∀ i j, i ≠ x → j ≠ x → matrix.cell i j = other.cell i j) :
    matrix.replaceCross x row column = other := by
  refine ext_cell fun i j ↦ ?_
  rw [cell_replaceCross]
  split_ifs with hij hi hj
  · rw [hij]
    exact hdiagonal j
  · subst hi
    exact hrow j (Ne.symm hij)
  · subst hj
    exact hcolumn i hi
  · exact hothers i j hi hj

theorem reset_yields (hmay : Tolerant may) (hclosed : matrix.Closed) (x : Index clocks)
    (value : Int) :
    Yields may (matrix.reset x value) (· = matrix.assignClock x Index.reference value) := by
  unfold reset
  refine (crossEntries_yields
    (fun i ↦ (Bound.atMost value).sum (matrix.cell Index.reference i))
    (fun i ↦ (matrix.cell i Index.reference).sum (Bound.atMost (-value)))
    fun i _ ↦ ?_).bind fun entries hentries ↦ ?_
  · refine (Bound.add_yields (hmay.sum _ _)).bind ?_
    rintro outgoing rfl
    refine (Word.negate_yields hmay value).bind ?_
    rintro opposite rfl
    refine (Bound.add_yields (hmay.sum _ _)).bind ?_
    rintro incoming rfl
    rfl
  · rw [Yields.pure_iff]
    refine replaceCross_eq (fun i ↦ ?_) (fun j hj ↦ ?_) (fun i hi ↦ ?_) fun i j hi hj ↦ ?_
    · rw [assignClock, substitute_diagonal hclosed.toGrounded, hclosed.diagonal]
    · simp [hentries j hj, assignClock, hj, Bound.sum_comm]
    · simp [hentries i hi, assignClock, hi]
    · simp [assignClock, hi, hj]

theorem copy_eq (hclosed : matrix.Closed) {x y : Index clocks} (hxy : x ≠ y) :
    matrix.copy x y = matrix.assignClock x y 0 := by
  rw [copy, if_neg hxy]
  refine replaceCross_eq (fun i ↦ ?_) (fun j hj ↦ ?_) (fun i hi ↦ ?_) fun i j hi hj ↦ ?_
  · rw [assignClock, substitute_diagonal hclosed.toGrounded, hclosed.diagonal]
  · by_cases hjy : j = y
    · simp [assignClock, hjy, hclosed.diagonal]
    · simp [assignClock, hjy, hj]
  · by_cases hiy : i = y
    · simp [assignClock, hiy, hclosed.diagonal]
    · simp [assignClock, hiy, hi]
  · simp [assignClock, hi, hj]

/-! ### Moving one clock -/

/-- The clock `x` moves by an offset, all others keep their values. -/
def moveClock (matrix : BoundMatrix clocks) (x : Index clocks) (offset : Int) :
    BoundMatrix clocks :=
  matrix.substitute id fun i ↦ if i = x then offset else 0

theorem moveClock_admits_iff (matrix : BoundMatrix clocks) (x : Index clocks) (offset : Int)
    (point : Index clocks → Rat) : (matrix.moveClock x offset).Admits point ↔
      matrix.Admits (Function.update point x (point x - offset)) := by
  refine forall_congr' fun i ↦ forall_congr' fun j ↦ ?_
  rw [moveClock, cell_substitute, Bound.sum_atMost_admits, id, id]
  have hdifference : point i - point j -
      (((if i = x then offset else 0) - (if j = x then offset else 0) : Int) : Rat) =
      Function.update point x (point x - offset) i -
        Function.update point x (point x - offset) j := by
    by_cases hi : i = x <;> by_cases hj : j = x <;> simp [hi, hj] <;> ring
  rw [hdifference]

/-- Moving a clock keeps what is not below the reference. -/
theorem shift_yields (hmay : Tolerant may) (hclosed : matrix.Closed) {x : Index clocks}
    (hx : x ≠ Index.reference) (offset : Int) :
    Yields may (matrix.shift x offset) fun after ↦ after.WellFormed ∧
      ∀ point, after.Admits point ↔ point Index.reference ≤ point x ∧
        matrix.Admits (Function.update point x (point x - offset)) := by
  unfold shift
  refine (crossEntries_yields (fun i ↦ (matrix.cell x i).sum (Bound.atMost offset))
    (fun i ↦ (matrix.cell i x).sum (Bound.atMost (-offset)))
    fun i _ ↦ ?_).bind fun entries hentries ↦ ?_
  · refine (Bound.add_yields (hmay.sum _ _)).bind ?_
    rintro outgoing rfl
    refine (Word.negate_yields hmay offset).bind ?_
    rintro opposite rfl
    refine (Bound.add_yields (hmay.sum _ _)).bind ?_
    rintro incoming rfl
    rfl
  · have hmoved : matrix.replaceCross x (fun j ↦ (entries.get j).1)
        (fun i ↦ (entries.get i).2) = matrix.moveClock x offset := by
      refine replaceCross_eq (fun i ↦ ?_) (fun j hj ↦ ?_) (fun i hi ↦ ?_) fun i j hi hj ↦ ?_
      · rw [moveClock, substitute_diagonal hclosed.toGrounded, hclosed.diagonal]
      · simp [hentries j hj, moveClock, hj]
      · simp [hentries i hi, moveClock, hi]
      · simp [moveClock, hi, hj]
    rw [hmoved]
    have hdiagonal : ∀ i, (matrix.moveClock x offset).cell i i = Bound.zero :=
      substitute_diagonal hclosed.toGrounded _ _
    refine ((constrain_cells (hmay.sum _ _)).and
      (constrain_admits hmay _ Index.reference x Bound.zero)).mono ?_
    rintro after ⟨hcells, hadmits⟩
    refine ⟨?_, fun point ↦ ?_⟩
    · rcases hcells with ⟨hempty, -⟩ | ⟨-, rfl⟩ | ⟨-, hcells⟩
      · rw [isEmpty, hdiagonal] at hempty
        simp at hempty
      · exact Or.inl rfl
      · refine Or.inr ⟨fun i ↦ ?_, fun i ↦ ?_⟩
        · rw [hcells, if_neg (fun hcell ↦ hx (hcell.2.symm.trans hcell.1))]
          exact hdiagonal i
        · rw [hcells]
          split_ifs with hcell
          · exact min_le_left _ _
          · have hi : i ≠ x := fun hi ↦ hcell ⟨rfl, hi⟩
            simpa [moveClock, hi, Ne.symm hx] using hclosed.nonnegative i
    · have hlower : Bound.zero.Admits (point Index.reference - point x) ↔
          point Index.reference ≤ point x := by
        simp [Bound.Admits]
      rw [hadmits, moveClock_admits_iff, hlower, and_comm]

end TimedSafety.BoundMatrix
