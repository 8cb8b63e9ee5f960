import Mathlib.Order.Fin.Basic
import Mathlib.Tactic.Ring
import TimedSafety.Proofs.Matrix.Closure

/-!
How large the cells of a matrix can become while it is closed, whether or not it has points. A
detour through the pivot adds two cells, and rows that come after the pivot already read its row as
it was improved, so treating a pivot can triple the cells of those and double the others
(`relaxAll_limited`). Over all pivots the cells can grow exponentially with the number of clocks.

A matrix that only tightenings have made is spared some of this. Cells against the reference have a
sign, and no cycle over two indices is negative (`Tightened`). So the first pivot leaves the cells
as limited as they were, the second only doubles them, as does the last, which no row comes after.
The closure of such a matrix stays within words if twice its `growth` does
(`foldlM_relaxAll_limited`).
-/

set_option autoImplicit false

namespace TimedSafety

/-! ### Limits -/

namespace Bound

/-- The bound is infinite, or its value is at most the limit in magnitude. -/
def Limited (limit : Int) : Bound → Prop
  | finite value _ => -limit ≤ value ∧ value ≤ limit
  | infinite => True

instance (limit : Int) : (bound : Bound) → Decidable (bound.Limited limit)
  | finite value _ => inferInstanceAs (Decidable (-limit ≤ value ∧ value ≤ limit))
  | infinite => inferInstanceAs (Decidable True)

variable {limit other : Int} {first second : Bound}

theorem Limited.mono (hlimited : first.Limited limit) (hle : limit ≤ other) :
    first.Limited other := by
  cases first with
  | infinite => trivial
  | finite value strict =>
    simp only [Limited] at *
    omega

theorem Limited.sum (hfirst : first.Limited limit) (hsecond : second.Limited other) :
    (first.sum second).Limited (limit + other) := by
  cases first with
  | infinite => trivial
  | finite value strict =>
    cases second with
    | infinite => trivial
    | finite value' strict' =>
      simp only [Limited, Bound.sum] at *
      omega

/-- Bounds of opposite signs have a sum that is as limited as they are. -/
theorem Limited.sum_of_signs (hfirst : first.Limited limit) (hsecond : second.Limited limit)
    (hlow : zero ≤ first) (hhigh : second ≤ zero) : (first.sum second).Limited limit := by
  cases first with
  | infinite => trivial
  | finite value strict =>
    cases second with
    | infinite => trivial
    | finite value' strict' =>
      rw [finite_le_finite] at hlow hhigh
      simp only [Limited, Bound.sum] at *
      omega

theorem Limited.min (hfirst : first.Limited limit) (hsecond : second.Limited limit) :
    (min first second).Limited limit := by
  rcases min_choice first second with hmin | hmin
  · rwa [hmin]
  · rwa [hmin]

/-- Sums of limited bounds fit a word if their limits do together. -/
theorem Limited.sumTolerated (hfirst : first.Limited limit) (hsecond : second.Limited other)
    (hfits : limit + other < 2 ^ 63) (may : Fault → Prop) : SumTolerated may first second := by
  intro hoverflow
  refine absurd ?_ hoverflow
  have hsum := hfirst.sum hsecond
  cases hcases : first.sum second with
  | infinite => trivial
  | finite value strict =>
    rw [hcases] at hsum
    simp only [Limited, Fits, Word.Fits] at *
    omega

end Bound

namespace Index

variable {clocks : Nat} {before after : List (Index clocks)} {next : Index clocks}

/-- An index stands in the list of all where its number says. -/
theorem val_of_split (hsplit : all clocks = before ++ next :: after) :
    next.val = before.length := by
  have hnext : (all clocks)[before.length]? = some next := by simp [hsplit]
  obtain ⟨hlength, hvalue⟩ := List.getElem?_eq_some_iff.mp hnext
  simp only [all, List.getElem_finRange] at hvalue
  simp [← hvalue]

theorem lt_of_mem_split (hsplit : all clocks = before ++ next :: after) {i : Index clocks}
    (hmem : i ∈ before) : i < next := by
  obtain ⟨first, second, rfl⟩ := List.append_of_mem hmem
  have hearlier : all clocks = first ++ i :: (second ++ next :: after) := by
    rw [hsplit, List.append_assoc, List.cons_append]
  rw [Fin.lt_def, val_of_split hearlier, val_of_split hsplit]
  simp

end Index

namespace BoundMatrix

variable {clocks : Nat} {matrix : BoundMatrix clocks} {limit : Int} {pivot : Index clocks}

/-- All finite cells are at most the limit in magnitude. -/
def Limited (matrix : BoundMatrix clocks) (limit : Int) : Prop :=
  ∀ i j, (matrix.cell i j).Limited limit

instance (matrix : BoundMatrix clocks) (limit : Int) : Decidable (matrix.Limited limit) :=
  inferInstanceAs (Decidable (∀ i j, (matrix.cell i j).Limited limit))

/-! ### One pivot -/

/-- How many times larger the cells of row `i` can become by the detours through the pivot. -/
def enlargement (pivot i : Index clocks) : Int := if i ≤ pivot then 2 else 3

theorem relaxAll_limited (hlimited : matrix.Limited limit) (hlimit : 0 ≤ limit)
    (hfits : ∀ i, enlargement pivot i * limit < 2 ^ 63) :
    Yields (fun _ ↦ False) (matrix.relaxAll pivot) fun after ↦
      ∀ i j, (after.cell i j).Limited (enlargement pivot i * limit) := by
  have hfold : Yields (fun _ ↦ False) (matrix.relaxAll pivot) fun after ↦ ∀ i j,
      (after.cell i j).Limited
        (if i ∈ Index.all clocks then enlargement pivot i * limit else limit) := by
    refine Yields.foldlM (fun rows (current : BoundMatrix clocks) ↦ ∀ i j,
      (current.cell i j).Limited (if i ∈ rows then enlargement pivot i * limit else limit))
      (fun i j ↦ by simpa using hlimited i j) ?_
    intro before next rest hsplit current hcurrent
    have hnext : ∀ j, (current.cell next j).Limited limit := by
      intro j
      have hnew : next ∉ before := fun hmem ↦ lt_irrefl _ (Index.lt_of_mem_split hsplit hmem)
      simpa [hnew] using hcurrent next j
    -- Up to the row of the pivot, that row is still the one the matrix had.
    have hpivot : ∀ j, (current.cell pivot j).Limited ((enlargement pivot next - 1) * limit) := by
      intro j
      refine (hcurrent pivot j).mono ?_
      unfold enlargement
      by_cases hbefore : pivot ∈ before
      · have hlt := Index.lt_of_mem_split hsplit hbefore
        rw [if_pos hbefore, if_pos le_rfl, if_neg (not_le.mpr hlt)]
        omega
      · rw [if_neg hbefore]
        split_ifs <;> omega
    have hsum : ∀ j, ((current.cell next pivot).sum (current.cell pivot j)).Limited
        (enlargement pivot next * limit) := by
      intro j
      refine ((hnext pivot).sum (hpivot j)).mono (le_of_eq ?_)
      ring
    refine (relax_yields fun j ↦ ?_).mono fun improved himproved i j ↦ ?_
    · refine (hnext pivot).sumTolerated (hpivot j) ?_ _
      have hnextFits := hfits next
      linarith
    · rw [himproved]
      by_cases hi : i = next
      · subst hi
        rw [if_pos rfl, if_pos (by simp)]
        refine (hsum j).min ((hnext j).mono ?_)
        unfold enlargement
        split_ifs <;> omega
      · simpa [hi] using hcurrent i j
  refine hfold.mono fun after hafter i j ↦ ?_
  simpa using hafter i j

/-! ### After tightenings -/

/-- What tightening leaves of a matrix that is not empty: besides being grounded and limited, it has
no negative cycle over two indices. -/
structure Tightened (matrix : BoundMatrix clocks) (limit : Int) : Prop extends
    Grounded matrix where
  limited : matrix.Limited limit
  cycle : ∀ i j, Bound.zero ≤ (matrix.cell i j).sum (matrix.cell j i)

/-- The empty form, or a matrix that tightenings have made. -/
def Moderate (matrix : BoundMatrix clocks) (limit : Int) : Prop :=
  matrix = empty clocks ∨ matrix.Tightened limit

theorem moderate_top (hlimit : 0 ≤ limit) : (top clocks).Moderate limit := by
  refine Or.inr ⟨closed_top.toGrounded, fun i j ↦ ?_, fun i j ↦ ?_⟩
  · rw [cell_top]
    split_ifs
    · exact ⟨by omega, hlimit⟩
    · trivial
  · rw [cell_top, cell_top]
    split_ifs <;> simp [Bound.le_infinite]

theorem constrain_moderate (hmatrix : matrix.Moderate limit) (hfits : 2 * limit < 2 ^ 63)
    (i j : Index clocks) {bound : Bound} (hbound : bound.Limited limit) :
    Yields (fun _ ↦ False) (matrix.constrain i j bound) (·.Moderate limit) := by
  rcases hmatrix with rfl | htightened
  · unfold constrain
    rw [isEmpty_empty, if_pos rfl]
    exact Or.inl rfl
  · have hsum := hbound.sumTolerated (htightened.limited j i) (by omega) fun _ ↦ False
    have hwellFormed := constrain_wellFormed tolerant_true (Or.inr htightened.toGrounded) i j bound
    refine ((constrain_cells hsum).and hwellFormed).mono ?_
    rintro after ⟨⟨-, rfl⟩ | ⟨-, rfl⟩ | ⟨hcycle, hcells⟩, hafter⟩
    · exact Or.inr htightened
    · exact Or.inl rfl
    · refine hafter.imp id fun hgrounded ↦ ⟨hgrounded, fun row column ↦ ?_, fun row column ↦ ?_⟩
      · rw [hcells]
        split_ifs
        · exact hbound.min (htightened.limited i j)
        · exact htightened.limited row column
      · by_cases hdiagonal : row = column
        · rw [hdiagonal, hgrounded.diagonal, Bound.sum_zero]
        · have hpair : Bound.zero ≤ (min bound (matrix.cell i j)).sum (matrix.cell j i) := by
            rcases min_choice bound (matrix.cell i j) with hmin | hmin
            · rwa [hmin]
            · rw [hmin]
              exact htightened.cycle i j
          rw [hcells, hcells]
          split_ifs with hcell hopposite hopposite
          · exact absurd (hcell.1.trans hopposite.1.symm) hdiagonal
          · rwa [hcell.1, hcell.2]
          · rwa [hopposite.1, hopposite.2, Bound.sum_comm]
          · exact htightened.cycle row column

/-! ### All pivots -/

/-- Cells against the reference are not negative. -/
theorem Tightened.zero_le_upper (htightened : matrix.Tightened limit) (i : Index clocks) :
    Bound.zero ≤ matrix.cell i Index.reference := by
  calc Bound.zero ≤ (matrix.cell i Index.reference).sum (matrix.cell Index.reference i) :=
        htightened.cycle i Index.reference
    _ ≤ matrix.cell i Index.reference := Bound.sum_le_of_le_zero (htightened.nonnegative i)

/-- The detours through the reference are as limited as the cells, and none is a negative cycle. -/
theorem Tightened.relaxAll_reference (htightened : matrix.Tightened limit)
    (hfits : 2 * limit < 2 ^ 63) : Yields (fun _ ↦ False) (matrix.relaxAll Index.reference)
      fun after ↦ after.Limited limit ∧ ∀ i, after.cell i i = Bound.zero := by
  have hlimited := htightened.limited
  refine (relaxAll_cells (fun i j ↦ ?_) (htightened.diagonal _)).mono fun after hcells ↦
    ⟨fun i j ↦ ?_, fun i ↦ ?_⟩
  · exact (hlimited i _).sumTolerated (hlimited _ j) (by omega) _
  · rw [hcells]
    refine Bound.Limited.min ?_ (hlimited i j)
    exact (hlimited i _).sum_of_signs (hlimited _ j) (htightened.zero_le_upper i)
      (htightened.nonnegative j)
  · rw [hcells, htightened.diagonal i]
    exact min_eq_right (htightened.cycle i _)

/-- How many times larger the cells of a tightened matrix can be after so many pivots. -/
def growth : Nat → Int
  | 0 => 1
  | 1 => 1
  | count + 2 => 2 * 3 ^ count

theorem growth_le_succ (count : Nat) : growth count ≤ growth (count + 1) := by
  match count with
  | 0 => exact le_rfl
  | 1 => decide
  | count + 2 =>
    have hpower : (0 : Int) < 3 ^ count := by positivity
    simp only [growth, pow_succ]
    linarith

theorem growth_mono {count more : Nat} (hle : count ≤ more) : growth count ≤ growth more :=
  monotone_nat_of_le_succ growth_le_succ hle

theorem one_le_growth (count : Nat) : 1 ≤ growth count := growth_mono (Nat.zero_le count)

theorem growth_succ (count : Nat) : growth (count + 3) = 3 * growth (count + 2) := by
  simp only [growth, pow_succ]
  ring

/-- The sums of a pivot fit a word: of the last one because no row comes after it, of any other
because there is room for one more pivot. -/
theorem enlargement_fits (hlimit : 0 ≤ limit) (hfits : 2 * growth clocks * limit < 2 ^ 63)
    {count : Nat} (hcount : pivot.val = count + 2) (i : Index clocks) :
    enlargement pivot i * (growth (count + 2) * limit) < 2 ^ 63 := by
  unfold enlargement
  split_ifs with hi
  · have hgrowth : growth (count + 2) ≤ growth clocks := growth_mono (by omega)
    have hscaled := mul_le_mul_of_nonneg_right hgrowth hlimit
    linarith
  · have hlater : pivot.val < i.val := not_le.mp hi
    have hgrowth : growth (count + 3) ≤ growth clocks := growth_mono (by omega)
    have hscaled := mul_le_mul_of_nonneg_right hgrowth hlimit
    have hpositive := mul_nonneg (le_trans zero_le_one (one_le_growth clocks)) hlimit
    rw [growth_succ] at hscaled
    linarith

/-- What is known of the cells after so many pivots. The first pivot leaves the diagonal alone. -/
structure Enlarged (matrix : BoundMatrix clocks) (limit : Int) (count : Nat)
    (current : BoundMatrix clocks) : Prop where
  limited : current.Limited (growth count * limit)
  start : count = 0 → current = matrix
  diagonal : count = 1 → ∀ i, current.cell i i = Bound.zero

/-- One more pivot, if its sums fit a word. -/
theorem Enlarged.relaxAll {current : BoundMatrix clocks} (htightened : matrix.Tightened limit)
    (hlimit : 0 ≤ limit) (hfits : 2 * growth clocks * limit < 2 ^ 63)
    (hcurrent : Enlarged matrix limit pivot.val current) :
    Yields (fun _ ↦ False) (current.relaxAll pivot) (Enlarged matrix limit (pivot.val + 1)) := by
  have hdouble : 2 * limit < 2 ^ 63 := by
    have hgrowth := mul_le_mul_of_nonneg_right (one_le_growth clocks) hlimit
    linarith
  match hcount : pivot.val with
  | 0 =>
    obtain rfl : pivot = Index.reference := Fin.ext hcount
    obtain rfl := hcurrent.start hcount
    refine (htightened.relaxAll_reference hdouble).mono ?_
    rintro after ⟨hlimited, hdiagonal⟩
    exact ⟨by simpa [growth] using hlimited, nofun, fun _ ↦ hdiagonal⟩
  | 1 =>
    rw [hcount] at hcurrent
    have hlimited : current.Limited limit := by simpa [growth] using hcurrent.limited
    refine (relaxAll_cells (fun i j ↦ ?_) (hcurrent.diagonal rfl pivot)).mono fun after hcells ↦
      ⟨fun i j ↦ ?_, nofun, nofun⟩
    · exact (hlimited i pivot).sumTolerated (hlimited pivot j) (by omega) _
    · rw [hcells]
      simp only [growth, pow_zero, mul_one]
      refine Bound.Limited.min ?_ ((hlimited i j).mono (by omega))
      exact ((hlimited i pivot).sum (hlimited pivot j)).mono (by omega)
  | count + 2 =>
    rw [hcount] at hcurrent
    have hscaled : 0 ≤ growth (count + 2) * limit :=
      mul_nonneg (le_trans zero_le_one (one_le_growth _)) hlimit
    refine (relaxAll_limited hcurrent.limited hscaled (enlargement_fits hlimit hfits hcount)).mono
      fun after hafter ↦ ⟨fun i j ↦ (hafter i j).mono ?_, nofun, nofun⟩
    rw [growth_succ]
    unfold enlargement
    split_ifs <;> linarith

/-- Closing a tightened matrix takes only sums within twice the growth over all clocks. -/
theorem foldlM_relaxAll_limited (htightened : matrix.Tightened limit) (hlimit : 0 ≤ limit)
    (hfits : 2 * growth clocks * limit < 2 ^ 63) :
    Yields (fun _ ↦ False) ((Index.all clocks).foldlM relaxAll matrix)
      (·.Limited (growth (clocks + 1) * limit)) := by
  have hfold : Yields (fun _ ↦ False) ((Index.all clocks).foldlM relaxAll matrix)
      (Enlarged matrix limit (Index.all clocks).length) := by
    refine Yields.foldlM (fun pivots ↦ Enlarged matrix limit pivots.length)
      ⟨by simpa [growth] using htightened.limited, fun _ ↦ rfl, nofun⟩ ?_
    intro before pivot rest hsplit current hcurrent
    rw [List.length_append, List.length_singleton, ← Index.val_of_split hsplit]
    rw [← Index.val_of_split hsplit] at hcurrent
    exact hcurrent.relaxAll htightened hlimit hfits
  refine hfold.mono fun closed hclosed ↦ ?_
  simpa [Index.all] using hclosed.limited

end BoundMatrix

end TimedSafety
