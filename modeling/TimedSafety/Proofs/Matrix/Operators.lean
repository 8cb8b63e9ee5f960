import Mathlib.Logic.Function.Basic
import TimedSafety.Proofs.Matrix.Closure
import TimedSafety.Proofs.Matrix.Interval

/-!
Operators on closed matrices are exact and keep them closed.

Forgetting a clock leaves the points that agree with one of the matrix on all other indices
(`free_admits_iff`), since a value of the forgotten clock can always be found between the bounds
that the others leave (`exists_update_admits`). Letting time pass forwards and backwards leaves the
points with a delay from or into the matrix (`up_admits_iff`, `down_admits_iff`), since a delay is a
value between bounds as well.

Setting, copying and moving a clock are the same operation: every index takes the value of another
one plus an offset (`substitute`). The triangle inequality carries over to it whatever the indices
and offsets are.
-/

set_option autoImplicit false

namespace TimedSafety.BoundMatrix

variable {clocks : Nat} {matrix : BoundMatrix clocks}

/-! ### Forgetting a clock -/

/-- A clock of a closed matrix has a value, not below the reference, that goes with the values of
all other indices. -/
theorem exists_update_admits (hclosed : matrix.Closed) {x : Index clocks}
    (hx : x ≠ Index.reference) (point : Index clocks → Rat)
    (hothers : ∀ i j, i ≠ x → j ≠ x → (matrix.cell i j).Admits (point i - point j)) :
    ∃ value, point Index.reference ≤ value ∧ matrix.Admits (Function.update point x value) := by
  have hmem : ∀ i, i ∈ (Index.all clocks).filter (· ≠ x) ↔ i ≠ x := fun i ↦ by simp
  obtain ⟨hvalue, hbetween⟩ := Endpoint.pick_between (fun i ↦ matrix.cell i x)
    (fun i ↦ matrix.cell x i) (fun i ↦ point i - point Index.reference)
    (fun i ↦ point i - point Index.reference) ((Index.all clocks).filter (· ≠ x)) (by
      intro j hj
      rw [zero_sub, neg_sub]
      refine Bound.admits_of_le ?_ (hothers Index.reference j (Ne.symm hx) ((hmem j).mp hj))
      calc matrix.cell Index.reference j
          ≤ (matrix.cell Index.reference x).sum (matrix.cell x j) := hclosed.triangle _ _ _
        _ ≤ Bound.zero.sum (matrix.cell x j) :=
          Bound.sum_le_sum_right (hclosed.nonnegative x) _
        _ = matrix.cell x j := Bound.zero_sum _) (by
      intro i hi j hj
      rw [sub_sub_sub_cancel_right]
      exact Bound.admits_of_le (hclosed.triangle i j x)
        (hothers i j ((hmem i).mp hi) ((hmem j).mp hj)))
  refine ⟨_ + point Index.reference, le_add_of_nonneg_left hvalue, fun i j ↦ ?_⟩
  by_cases hi : i = x
  · by_cases hj : j = x
    · subst hi hj
      simp [hclosed.diagonal, Bound.Admits]
    · subst hi
      have hadmits := (hbetween j ((hmem j).mpr hj)).2
      rw [Function.update_self, Function.update_of_ne hj]
      convert hadmits using 1
      ring
  · by_cases hj : j = x
    · subst hj
      have hadmits := (hbetween i ((hmem i).mpr hi)).1
      rw [Function.update_self, Function.update_of_ne hi]
      convert hadmits using 1
      ring
    · rw [Function.update_of_ne hi, Function.update_of_ne hj]
      exact hothers i j hi hj

theorem Closed.free (hclosed : matrix.Closed) {x : Index clocks} (hx : x ≠ Index.reference) :
    (matrix.free x).Closed where
  diagonal i := by
    rw [cell_free, if_pos rfl]
    exact hclosed.diagonal i
  nonnegative i := by
    rw [cell_free, if_neg (Ne.symm hx)]
    split_ifs
    · exact hclosed.nonnegative i
    · exact hclosed.nonnegative _
    · exact hclosed.nonnegative i
  triangle i j k := by
    by_cases hik : i = k
    · subst hik
      have hdiagonal : (matrix.free x).cell i i = Bound.zero := by simp [hclosed.diagonal]
      rw [hdiagonal, Bound.zero_sum]
    · by_cases hix : i = x
      · have hinfinite : (matrix.free x).cell i k = .infinite := by
          rw [cell_free, if_neg hik, if_pos hix]
        rw [hinfinite, Bound.infinite_sum]
        exact Bound.le_infinite _
      · by_cases hkx : k = x
        · subst hkx
          by_cases hjk : j = k
          · subst hjk
            have hdiagonal : (matrix.free j).cell j j = Bound.zero := by simp [hclosed.diagonal]
            rw [hdiagonal, Bound.sum_zero]
          · have hinfinite : (matrix.free k).cell k j = .infinite := by simp [Ne.symm hjk]
            rw [hinfinite, Bound.sum_infinite]
            exact Bound.le_infinite _
        · have hold : ∀ a b, a ≠ x →
              (matrix.free x).cell a b = if b = x then matrix.cell a Index.reference
                else matrix.cell a b := by
            intro a b ha
            rw [cell_free, if_neg ha]
            by_cases hab : a = b
            · subst hab
              simp [ha]
            · rw [if_neg hab]
          rw [hold i j hix, hold i k hix, hold k j hkx, if_neg hkx]
          split_ifs
          · exact hclosed.triangle i Index.reference k
          · exact hclosed.triangle i j k

/-- Forgetting a clock admits any value of it that is not below the reference. -/
theorem Admits.free {x : Index clocks} (hx : x ≠ Index.reference) {point : Index clocks → Rat}
    {value : Rat} (hadmits : matrix.Admits (Function.update point x value))
    (hle : point Index.reference ≤ point x) : (matrix.free x).Admits point := by
  intro i j
  rw [cell_free]
  split_ifs with hij hi hj
  · subst hij
    have hcell := hadmits i i
    rwa [sub_self] at hcell ⊢
  · trivial
  · -- The reference is not above the forgotten clock, so its bound serves for both.
    subst hj
    have hcell := hadmits i Index.reference
    rw [Function.update_of_ne hi, Function.update_of_ne (Ne.symm hx)] at hcell
    exact hcell.of_le (by linarith)
  · have hcell := hadmits i j
    rwa [Function.update_of_ne hi, Function.update_of_ne hj] at hcell

theorem free_admits_iff (hclosed : matrix.Closed) {x : Index clocks} (hx : x ≠ Index.reference)
    (point : Index clocks → Rat) : (matrix.free x).Admits point ↔
      point Index.reference ≤ point x ∧
        ∃ value, matrix.Admits (Function.update point x value) := by
  constructor
  · intro hadmits
    refine ⟨(hclosed.free hx).reference_le hadmits x, ?_⟩
    obtain ⟨value, -, hvalue⟩ := exists_update_admits hclosed hx point (by
      intro i j hi hj
      have hcell := hadmits i j
      rw [cell_free, if_neg hi, if_neg hj, ite_self] at hcell
      exact hcell)
    exact ⟨value, hvalue⟩
  · rintro ⟨hle, value, hadmits⟩
    exact hadmits.free hx hle

/-! ### Time -/

/-- The point after some time, the reference staying where it is. -/
def delayed (point : Index clocks → Rat) (duration : Rat) : Index clocks → Rat :=
  fun i ↦ if i = Index.reference then point i else point i + duration

@[simp] theorem delayed_reference (point : Index clocks → Rat) (duration : Rat) :
    delayed point duration Index.reference = point Index.reference := if_pos rfl

theorem delayed_of_ne (point : Index clocks → Rat) (duration : Rat) {i : Index clocks}
    (hi : i ≠ Index.reference) : delayed point duration i = point i + duration := if_neg hi

/-- A point moved in time lies in a matrix as soon as its clocks obey the bounds against each other
and, moved, those against the reference. -/
theorem admits_delayed {point : Index clocks → Rat} {duration : Rat}
    (hreference : (matrix.cell Index.reference Index.reference).Admits 0)
    (hothers : ∀ i j, i ≠ Index.reference → j ≠ Index.reference →
      (matrix.cell i j).Admits (point i - point j))
    (hupper : ∀ i, i ≠ Index.reference →
      (matrix.cell i Index.reference).Admits (point i + duration - point Index.reference))
    (hlower : ∀ i, i ≠ Index.reference →
      (matrix.cell Index.reference i).Admits (point Index.reference - (point i + duration))) :
    matrix.Admits (delayed point duration) := by
  intro i j
  by_cases hi : i = Index.reference
  · subst hi
    by_cases hj : j = Index.reference
    · subst hj
      rwa [sub_self]
    · rw [delayed_reference, delayed_of_ne point duration hj]
      exact hlower j hj
  · rw [delayed_of_ne point duration hi]
    by_cases hj : j = Index.reference
    · subst hj
      rw [delayed_reference]
      exact hupper i hi
    · rw [delayed_of_ne point duration hj, add_sub_add_right_eq_sub]
      exact hothers i j hi hj

theorem Closed.up (hclosed : matrix.Closed) : matrix.up.Closed where
  diagonal i := by
    rw [cell_up, if_neg (fun hcell ↦ hcell.1 hcell.2)]
    exact hclosed.diagonal i
  nonnegative i := by
    rw [cell_up, if_neg (fun hcell ↦ hcell.1 rfl)]
    exact hclosed.nonnegative i
  triangle i j k := by
    by_cases hk : k = Index.reference
    · subst hk
      by_cases hi : i = Index.reference
      · subst hi
        simp only [cell_up, ne_eq, not_true_eq_false, false_and, if_false]
        rw [hclosed.diagonal, Bound.zero_sum]
      · have hinfinite : matrix.up.cell i Index.reference = .infinite := by simp [hi]
        rw [hinfinite, Bound.infinite_sum]
        exact Bound.le_infinite _
    · by_cases hj : j = Index.reference
      · have hinfinite : matrix.up.cell k j = .infinite := by simp [hk, hj]
        rw [hinfinite, Bound.sum_infinite]
        exact Bound.le_infinite _
      · simp only [cell_up, hj, hk, and_false, if_false]
        exact hclosed.triangle i j k

/-- The points after time has passed are those that had a point of the matrix some time before. -/
theorem up_admits_iff (hclosed : matrix.Closed) (point : Index clocks → Rat) :
    matrix.up.Admits point ↔
      ∃ duration, 0 ≤ duration ∧ matrix.Admits (delayed point (-duration)) := by
  constructor
  · intro hadmits
    have hothers : ∀ i j, j ≠ Index.reference →
        (matrix.cell i j).Admits (point i - point j) := by
      intro i j hj
      have hcell := hadmits i j
      rwa [cell_up, if_neg (fun hupper ↦ hj hupper.2)] at hcell
    obtain ⟨hduration, hbetween⟩ := Endpoint.pick_between
      (fun i ↦ matrix.cell i Index.reference) (fun i ↦ matrix.cell Index.reference i)
      (fun i ↦ point i - point Index.reference) (fun i ↦ point i - point Index.reference)
      (Index.proper clocks) (by
        intro j hj
        rw [zero_sub, neg_sub]
        exact hothers _ j ((Index.mem_proper j).mp hj)) (by
        intro i _ j hj
        rw [sub_sub_sub_cancel_right]
        exact Bound.admits_of_le (hclosed.triangle i j _)
          (hothers i j ((Index.mem_proper j).mp hj)))
    refine ⟨_, hduration, admits_delayed ?_ (fun i j _ hj ↦ hothers i j hj) ?_ ?_⟩
    · simp [hclosed.diagonal, Bound.Admits]
    · intro i hi
      convert (hbetween i ((Index.mem_proper i).mpr hi)).1 using 1
      ring
    · intro i hi
      convert (hbetween i ((Index.mem_proper i).mpr hi)).2 using 1
      ring
  · rintro ⟨duration, hduration, hadmits⟩ i j
    rw [cell_up]
    split_ifs with hcell
    · trivial
    · have hold := hadmits i j
      by_cases hi : i = Index.reference
      · subst hi
        by_cases hj : j = Index.reference
        · subst hj
          rwa [sub_self] at hold ⊢
        · rw [delayed_reference, delayed_of_ne point _ hj] at hold
          exact hold.of_le (by linarith)
      · have hj : j ≠ Index.reference := fun hj ↦ hcell ⟨hi, hj⟩
        rwa [delayed_of_ne point _ hi, delayed_of_ne point _ hj, add_sub_add_right_eq_sub] at hold

/-! The lower bounds that going back in time leaves. -/

theorem foldl_min_spec (cells : Index clocks → Bound) (indices : List (Index clocks)) :
    indices.foldl (fun lowest i ↦ min lowest (cells i)) Bound.zero ≤ Bound.zero ∧
      (∀ i ∈ indices, indices.foldl (fun lowest i ↦ min lowest (cells i)) Bound.zero ≤ cells i) ∧
      (indices.foldl (fun lowest i ↦ min lowest (cells i)) Bound.zero = Bound.zero ∨
        ∃ i ∈ indices, indices.foldl (fun lowest i ↦ min lowest (cells i)) Bound.zero =
          cells i) := by
  induction indices using List.reverseRecOn with
  | nil => simp
  | append_singleton front last ih =>
    obtain ⟨hzero, hcells, hattained⟩ := ih
    rw [List.foldl_append, List.foldl_cons, List.foldl_nil]
    refine ⟨Bound.le_trans (min_le_left _ _) hzero, fun i hi ↦ ?_, ?_⟩
    · rcases List.mem_append.mp hi with hfront | hlast
      · exact Bound.le_trans (min_le_left _ _) (hcells i hfront)
      · rw [List.mem_singleton.mp hlast]
        exact min_le_right _ _
    · rcases min_choice (front.foldl (fun lowest i ↦ min lowest (cells i)) Bound.zero)
        (cells last) with hmin | hmin
      · rw [hmin]
        exact hattained.imp id fun ⟨i, hi, heq⟩ ↦ ⟨i, List.mem_append_left _ hi, heq⟩
      · rw [hmin]
        exact Or.inr ⟨last, by simp, rfl⟩

theorem lowestAgainst_le_zero (matrix : BoundMatrix clocks) (j : Index clocks) :
    matrix.lowestAgainst j ≤ Bound.zero := (foldl_min_spec (matrix.cell · j) _).1

theorem lowestAgainst_le (matrix : BoundMatrix clocks) {i : Index clocks} (j : Index clocks)
    (hi : i ≠ Index.reference) : matrix.lowestAgainst j ≤ matrix.cell i j :=
  (foldl_min_spec (matrix.cell · j) _).2.1 i ((Index.mem_proper i).mpr hi)

theorem lowestAgainst_attained (matrix : BoundMatrix clocks) (j : Index clocks) :
    matrix.lowestAgainst j = Bound.zero ∨
      ∃ i, i ≠ Index.reference ∧ matrix.lowestAgainst j = matrix.cell i j := by
  refine (foldl_min_spec (matrix.cell · j) (Index.proper clocks)).2.2.imp id ?_
  rintro ⟨i, hi, heq⟩
  exact ⟨i, (Index.mem_proper i).mp hi, heq⟩

/-- In a closed matrix, upper bounds of clocks are not negative. -/
theorem Closed.zero_le_upper (hclosed : matrix.Closed) (i : Index clocks) :
    Bound.zero ≤ matrix.cell i Index.reference := by
  calc Bound.zero = matrix.cell i i := (hclosed.diagonal i).symm
    _ ≤ (matrix.cell i Index.reference).sum (matrix.cell Index.reference i) :=
      hclosed.triangle _ _ _
    _ ≤ matrix.cell i Index.reference := Bound.sum_le_of_le_zero (hclosed.nonnegative i)

/-- In a closed matrix, the bound against another clock is at most the upper bound. -/
theorem Closed.cell_le_upper (hclosed : matrix.Closed) (i j : Index clocks) :
    matrix.cell i j ≤ matrix.cell i Index.reference := by
  calc matrix.cell i j
      ≤ (matrix.cell i Index.reference).sum (matrix.cell Index.reference j) :=
        hclosed.triangle _ _ _
    _ ≤ matrix.cell i Index.reference := Bound.sum_le_of_le_zero (hclosed.nonnegative j)

/-- A detour through the reference costs no less with the new lower bounds. -/
theorem Closed.cell_le_sum_lowestAgainst (hclosed : matrix.Closed) (i j : Index clocks) :
    matrix.cell i j ≤ (matrix.cell i Index.reference).sum (matrix.lowestAgainst j) := by
  -- The new lower bound of `j` is `≤ 0` or the bound of some clock against `j`.
  rcases lowestAgainst_attained matrix j with hlowest | ⟨m, -, hlowest⟩
  · rw [hlowest, Bound.sum_zero]
    exact hclosed.cell_le_upper i j
  · rw [hlowest]
    calc matrix.cell i j ≤ (matrix.cell i m).sum (matrix.cell m j) := hclosed.triangle i j m
      _ ≤ (matrix.cell i Index.reference).sum (matrix.cell m j) :=
        Bound.sum_le_sum_right (hclosed.cell_le_upper i m) _

/-- What is below the bounds of all clocks against `j` is below any detour from the reference. -/
theorem Closed.le_lowestAgainst_sum (hclosed : matrix.Closed) {bound : Bound}
    {j k : Index clocks} (hk : k ≠ Index.reference)
    (hbound : ∀ m, m ≠ Index.reference → bound ≤ matrix.cell m j) :
    bound ≤ (matrix.lowestAgainst k).sum (matrix.cell k j) := by
  rcases lowestAgainst_attained matrix k with hlowest | ⟨m, hm, hlowest⟩
  · rw [hlowest, Bound.zero_sum]
    exact hbound k hk
  · rw [hlowest]
    exact Bound.le_trans (hbound m hm) (hclosed.triangle m j k)

theorem cell_down_of_ne {i : Index clocks} (hi : i ≠ Index.reference) (j : Index clocks) :
    matrix.down.cell i j = matrix.cell i j := by
  rw [cell_down, if_neg (fun hcell ↦ hi hcell.1)]

theorem cell_down_reference {j : Index clocks} (hj : j ≠ Index.reference) :
    matrix.down.cell Index.reference j = matrix.lowestAgainst j := by
  rw [cell_down, if_pos ⟨rfl, hj⟩]

theorem Closed.down (hclosed : matrix.Closed) : matrix.down.Closed where
  diagonal i := by
    rw [cell_down, if_neg (fun hcell ↦ hcell.2 hcell.1)]
    exact hclosed.diagonal i
  nonnegative i := by
    rw [cell_down]
    split_ifs
    · exact lowestAgainst_le_zero matrix i
    · exact hclosed.nonnegative i
  triangle i j k := by
    have hcorner : matrix.down.cell Index.reference Index.reference = Bound.zero := by
      rw [cell_down, if_neg (fun hcell ↦ hcell.2 rfl)]
      exact hclosed.diagonal _
    by_cases hk : k = Index.reference
    · subst hk
      by_cases hi : i = Index.reference
      · subst hi
        rw [hcorner, Bound.zero_sum]
      · rw [cell_down_of_ne hi, cell_down_of_ne hi]
        by_cases hj : j = Index.reference
        · subst hj
          rw [hcorner, Bound.sum_zero]
        · rw [cell_down_reference hj]
          exact hclosed.cell_le_sum_lowestAgainst i j
    · rw [cell_down_of_ne hk]
      by_cases hi : i = Index.reference
      · subst hi
        rw [cell_down_reference hk]
        by_cases hj : j = Index.reference
        · subst hj
          rw [hcorner]
          exact hclosed.le_lowestAgainst_sum hk fun m _ ↦ hclosed.zero_le_upper m
        · rw [cell_down_reference hj]
          exact hclosed.le_lowestAgainst_sum hk fun m hm ↦ lowestAgainst_le matrix j hm
      · rw [cell_down_of_ne hi, cell_down_of_ne hi]
        exact hclosed.triangle i j k

/-- Going back in time admits any point, nowhere below the reference, that leads into the matrix. -/
theorem Admits.down {point : Index clocks → Rat} {duration : Rat} (hduration : 0 ≤ duration)
    (hnonnegative : ∀ i, point Index.reference ≤ point i)
    (hadmits : matrix.Admits (delayed point duration)) : matrix.down.Admits point := by
  intro i j
  rw [cell_down]
  split_ifs with hcell
  · obtain ⟨rfl, hj⟩ := hcell
    rcases lowestAgainst_attained matrix j with hlowest | ⟨m, hm, hlowest⟩
    · have := hnonnegative j
      rw [hlowest]
      simp only [Bound.Admits, Int.cast_zero]
      linarith
    · have hold := hadmits m j
      rw [delayed_of_ne point _ hm, delayed_of_ne point _ hj, add_sub_add_right_eq_sub] at hold
      rw [hlowest]
      exact hold.of_le (by linarith [hnonnegative m])
  · have hold := hadmits i j
    by_cases hi : i = Index.reference
    · have hj : j = Index.reference := by
        by_contra hj
        exact hcell ⟨hi, hj⟩
      subst hi hj
      rwa [sub_self] at hold ⊢
    · rw [delayed_of_ne point _ hi] at hold
      by_cases hj : j = Index.reference
      · subst hj
        rw [delayed_reference] at hold
        exact hold.of_le (by linarith)
      · rwa [delayed_of_ne point _ hj, add_sub_add_right_eq_sub] at hold

/-- The points from which time leads into the matrix, none of them below the reference. -/
theorem down_admits_iff (hclosed : matrix.Closed) (point : Index clocks → Rat) :
    matrix.down.Admits point ↔ (∀ i, point Index.reference ≤ point i) ∧
      ∃ duration, 0 ≤ duration ∧ matrix.Admits (delayed point duration) := by
  constructor
  · intro hadmits
    refine ⟨hclosed.down.reference_le hadmits, ?_⟩
    have hothers : ∀ i j, i ≠ Index.reference →
        (matrix.cell i j).Admits (point i - point j) := by
      intro i j hi
      have hcell := hadmits i j
      rwa [cell_down_of_ne hi] at hcell
    obtain ⟨hduration, hbetween⟩ := Endpoint.pick_between
      (fun i ↦ matrix.cell Index.reference i) (fun i ↦ matrix.cell i Index.reference)
      (fun i ↦ point Index.reference - point i) (fun i ↦ point Index.reference - point i)
      (Index.proper clocks) (by
        intro j hj
        rw [zero_sub, neg_sub]
        exact hothers j _ ((Index.mem_proper j).mp hj)) (by
        intro i _ j hj
        rw [Bound.sum_comm, sub_sub_sub_cancel_left]
        exact Bound.admits_of_le (hclosed.triangle j i _)
          (hothers j i ((Index.mem_proper j).mp hj)))
    refine ⟨_, hduration, admits_delayed ?_ (fun i j hi _ ↦ hothers i j hi) ?_ ?_⟩
    · simp [hclosed.diagonal, Bound.Admits]
    · intro i hi
      convert (hbetween i ((Index.mem_proper i).mpr hi)).2 using 1
      ring
    · intro i hi
      convert (hbetween i ((Index.mem_proper i).mpr hi)).1 using 1
      ring
  · rintro ⟨hnonnegative, duration, hduration, hadmits⟩
    exact hadmits.down hduration hnonnegative

end TimedSafety.BoundMatrix
