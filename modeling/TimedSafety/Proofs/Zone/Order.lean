import TimedSafety.Proofs.Zone.Sample

/-!
Zones compared by their matrices. Every cell of a closed matrix is tight: a bound below it is
exceeded by some valuation of the zone (`exists_mem_not_admits`). To find one, the opposite of the
bound is put on the difference the other way round, and each cell is lowered to the detour through
it; this keeps the matrix closed (`Closed.narrow`), so the narrowed zone still has a valuation.

Comparing two canonical zones cell by cell therefore decides inclusion (`isSubset_yields`), zones
with the same valuations are equal (`Canonical.ext`), and only the top zone contains everything.
-/

set_option autoImplicit false

namespace TimedSafety

/-! ### The opposite of a bound -/

namespace Bound

/-- The bound on the negated difference that admits just what the bound refuses. -/
def opposite : Bound → Bound
  | finite value strict => finite (-value) (!strict)
  | infinite => infinite

theorem opposite_admits_iff (value : Int) (strict : Bool) (difference : Rat) :
    (opposite (finite value strict)).Admits (-difference) ↔
      ¬ (finite value strict).Admits difference := by
  cases strict <;> simp [opposite, Admits]

/-- What lies above a bound leaves room for its opposite. -/
theorem zero_le_opposite_sum {bound higher : Bound} (hlt : bound < higher) :
    zero ≤ bound.opposite.sum higher := by
  cases higher with
  | infinite =>
    rw [sum_infinite]
    exact le_infinite _
  | finite limit limitStrict =>
    cases bound with
    | infinite => exact absurd (le_infinite _) (not_le_of_gt hlt)
    | finite value strict =>
      have hle := le_of_lt hlt
      have hne := ne_of_lt hlt
      simp only [opposite, sum, finite_le_finite] at hle ⊢
      cases strict <;> cases limitStrict <;> simp_all
      all_goals omega

end Bound

/-! ### Narrowing a closed matrix -/

namespace BoundMatrix

variable {clocks : Nat} {matrix : BoundMatrix clocks} {i j : Index clocks} {bound : Bound}

/-- Puts the bound on the difference of `i` and `j`, and lowers every cell to the detour through
it. -/
def narrow (matrix : BoundMatrix clocks) (i j : Index clocks) (bound : Bound) :
    BoundMatrix clocks :=
  tabulate fun row column ↦
    min (matrix.cell row column) ((matrix.cell row i).sum (bound.sum (matrix.cell j column)))

@[simp] theorem cell_narrow (matrix : BoundMatrix clocks) (i j : Index clocks) (bound : Bound)
    (row column : Index clocks) : (matrix.narrow i j bound).cell row column =
      min (matrix.cell row column)
        ((matrix.cell row i).sum (bound.sum (matrix.cell j column))) := by
  simp [narrow]

/-- Two detours through the new bound cost no less than one, as long as it leaves room for the cell
the other way round. -/
theorem Closed.detour_le_detour_detour (hclosed : matrix.Closed)
    (hroom : Bound.zero ≤ bound.sum (matrix.cell j i)) (row column middle : Index clocks) :
    (matrix.cell row i).sum (bound.sum (matrix.cell j column)) ≤
      ((matrix.cell row i).sum (bound.sum (matrix.cell j middle))).sum
        ((matrix.cell middle i).sum (bound.sum (matrix.cell j column))) := by
  calc (matrix.cell row i).sum (bound.sum (matrix.cell j column))
      = (matrix.cell row i).sum (Bound.zero.sum (bound.sum (matrix.cell j column))) := by
        rw [Bound.zero_sum]
    _ ≤ (matrix.cell row i).sum ((bound.sum (matrix.cell j i)).sum
          (bound.sum (matrix.cell j column))) :=
        Bound.sum_le_sum_left _ (Bound.sum_le_sum_right hroom _)
    _ ≤ (matrix.cell row i).sum ((bound.sum ((matrix.cell j middle).sum
          (matrix.cell middle i))).sum (bound.sum (matrix.cell j column))) :=
        Bound.sum_le_sum_left _ (Bound.sum_le_sum_right
          (Bound.sum_le_sum_left _ (hclosed.triangle j i middle)) _)
    _ = ((matrix.cell row i).sum (bound.sum (matrix.cell j middle))).sum
          ((matrix.cell middle i).sum (bound.sum (matrix.cell j column))) := by
        simp only [Bound.sum_assoc]

/-- Narrowing keeps a matrix closed, as long as the bound leaves room for the cell the other way
round. -/
theorem Closed.narrow (hclosed : matrix.Closed)
    (hroom : Bound.zero ≤ bound.sum (matrix.cell j i)) : (matrix.narrow i j bound).Closed where
  diagonal k := by
    rw [cell_narrow, hclosed.diagonal]
    refine min_eq_left ?_
    calc Bound.zero ≤ bound.sum (matrix.cell j i) := hroom
      _ ≤ bound.sum ((matrix.cell j k).sum (matrix.cell k i)) :=
        Bound.sum_le_sum_left _ (hclosed.triangle j i k)
      _ = (matrix.cell k i).sum (bound.sum (matrix.cell j k)) := by
        rw [← Bound.sum_assoc, Bound.sum_comm]
  nonnegative k := by
    rw [cell_narrow]
    exact Bound.le_trans (min_le_left _ _) (hclosed.nonnegative k)
  triangle row column middle := by
    simp only [cell_narrow]
    -- Each half of a detour through `middle` is an old cell or itself a detour.
    rcases min_choice (matrix.cell row middle)
      ((matrix.cell row i).sum (bound.sum (matrix.cell j middle))) with hfirst | hfirst <;>
    rcases min_choice (matrix.cell middle column)
      ((matrix.cell middle i).sum (bound.sum (matrix.cell j column))) with hsecond | hsecond <;>
    rw [hfirst, hsecond]
    · exact Bound.le_trans (min_le_left _ _) (hclosed.triangle row column middle)
    · refine Bound.le_trans (min_le_right _ _) ?_
      rw [← Bound.sum_assoc (matrix.cell row middle)]
      exact Bound.sum_le_sum_right (hclosed.triangle row i middle) _
    · refine Bound.le_trans (min_le_right _ _) ?_
      rw [Bound.sum_assoc, Bound.sum_assoc]
      exact Bound.sum_le_sum_left _ (Bound.sum_le_sum_left _ (hclosed.triangle j column middle))
    · exact Bound.le_trans (min_le_right _ _) (hclosed.detour_le_detour_detour hroom _ _ _)

theorem cell_narrow_le (hclosed : matrix.Closed) : (matrix.narrow i j bound).cell i j ≤ bound := by
  rw [cell_narrow, hclosed.diagonal, hclosed.diagonal, Bound.zero_sum, Bound.sum_zero]
  exact min_le_right _ _

end BoundMatrix

/-! ### Inclusion and equality -/

namespace Zone

variable {clocks : Nat} {zone other : Zone}

/-- A bound below a cell of a closed matrix is exceeded by a valuation of the zone. -/
theorem exists_mem_not_admits (hclosed : zone.matrix.Closed) {i j : Index zone.clocks}
    {bound : Bound} (hlt : bound < zone.matrix.cell i j) : ∃ valuation ∈ zone,
      ¬ bound.Admits (valuation.point zone.clocks i - valuation.point zone.clocks j) := by
  have hnarrow := hclosed.narrow (Bound.zero_le_opposite_sum hlt)
  have hcanonical : Canonical ⟨zone.clocks, zone.matrix.narrow j i bound.opposite⟩ := Or.inr hnarrow
  obtain ⟨valuation, hmem⟩ := (exists_mem_iff hcanonical).mp hnarrow.isEmpty_eq
  obtain ⟨hclocks, hadmits⟩ := (mem_iff_admits _ valuation).mp hmem
  refine ⟨valuation, (mem_iff_admits zone valuation).mpr ⟨hclocks, hadmits.of_cell_le ?_⟩, ?_⟩
  · intro row column
    rw [BoundMatrix.cell_narrow]
    exact min_le_left _ _
  · have hopposite := Bound.admits_of_le (BoundMatrix.cell_narrow_le hclosed) (hadmits j i)
    cases bound with
    | infinite => exact absurd (Bound.le_infinite _) (not_le_of_gt hlt)
    | finite value strict => rwa [← neg_sub, Bound.opposite_admits_iff] at hopposite

/-- A closed matrix whose valuations all lie in a zone is below it in every cell. -/
theorem cell_le_of_subset {matrix larger : BoundMatrix clocks} (hclosed : matrix.Closed)
    (hsubset : ∀ valuation, valuation ∈ (⟨clocks, matrix⟩ : Zone) →
      valuation ∈ (⟨clocks, larger⟩ : Zone)) (i j : Index clocks) :
    matrix.cell i j ≤ larger.cell i j := by
  by_contra hnot
  obtain ⟨valuation, hmem, hexceeds⟩ :=
    @exists_mem_not_admits ⟨clocks, matrix⟩ hclosed i j _ (not_le.mp hnot)
  exact hexceeds (((mem_iff_admits _ valuation).mp (hsubset valuation hmem)).2 i j)

/-- Comparing cells decides inclusion of canonical zones, and never faults on the same clocks. -/
theorem isSubset_yields (hzone : zone.Canonical) (hother : other.Canonical)
    (hclocks : other.clocks = zone.clocks) :
    Yields (fun _ ↦ False) (zone.isSubset other) fun answer ↦
      (answer = true ↔ ∀ valuation ∈ zone, valuation ∈ other) := by
  obtain ⟨size, larger⟩ := other
  obtain ⟨clocks, matrix⟩ := zone
  obtain rfl : size = clocks := hclocks
  simp only [isSubset, BoundMatrix.isSubset, dif_pos, Yields.ok_iff]
  cases hempty : matrix.isEmpty with
  | true =>
    have hnone := (isBottom_iff hzone).mp hempty
    simp [hnone]
  | false =>
    cases hvoid : larger.isEmpty with
    | true =>
      have hnone := (isBottom_iff hother).mp hvoid
      obtain ⟨valuation, hmem⟩ := (exists_mem_iff hzone).mp hempty
      refine iff_of_false (by simp) fun hsubset ↦ ?_
      exact hnone valuation (hsubset valuation hmem)
    | false =>
      have hcells : matrix.cellsLe larger = true ↔
          ∀ i j, matrix.cell i j ≤ larger.cell i j := by
        simp [BoundMatrix.cellsLe]
      rw [Bool.false_or, Bool.not_false, Bool.true_and, hcells]
      constructor
      · intro hle valuation hmem
        obtain ⟨hsize, hadmits⟩ := (mem_iff_admits _ valuation).mp hmem
        exact (mem_iff_admits _ valuation).mpr ⟨hsize, hadmits.of_cell_le hle⟩
      · exact fun hsubset ↦ cell_le_of_subset (hzone.closed hempty) hsubset

theorem isSubset_eq_true_iff (hzone : zone.Canonical) (hother : other.Canonical)
    (hclocks : other.clocks = zone.clocks) :
    zone.isSubset other = .ok true ↔ ∀ valuation ∈ zone, valuation ∈ other := by
  have hyields := isSubset_yields hzone hother hclocks
  cases hanswer : zone.isSubset other with
  | ok answer =>
    rw [Except.ok.injEq]
    exact hyields.result hanswer
  | error fault => exact (hyields.fault hanswer).elim

/-- Canonical zones over the same clocks with the same valuations are equal. -/
theorem Canonical.ext (hzone : zone.Canonical) (hother : other.Canonical)
    (hclocks : other.clocks = zone.clocks)
    (hsame : ∀ valuation, valuation ∈ zone ↔ valuation ∈ other) : zone = other := by
  obtain ⟨size, larger⟩ := other
  obtain ⟨clocks, matrix⟩ := zone
  obtain rfl : size = clocks := hclocks
  congr 1
  cases hempty : matrix.isEmpty with
  | true =>
    -- Nothing lies in the empty form, so the other matrix is the empty form as well.
    have hvoid : larger.isEmpty = true := (isBottom_iff hother).mpr fun valuation hmem ↦
      (isBottom_iff hzone).mp hempty valuation ((hsame valuation).mpr hmem)
    exact ((BoundMatrix.Canonical.wellFormed hzone).isEmpty_iff.mp hempty).trans
      ((BoundMatrix.Canonical.wellFormed hother).isEmpty_iff.mp hvoid).symm
  | false =>
    obtain ⟨valuation, hmem⟩ := (exists_mem_iff hzone).mp hempty
    have hfull : larger.isEmpty = false := isBottom_of_mem ((hsame valuation).mp hmem)
    refine BoundMatrix.ext_cell fun i j ↦ Bound.le_antisymm ?_ ?_
    · exact cell_le_of_subset (hzone.closed hempty) (fun valuation ↦ (hsame valuation).mp) i j
    · exact cell_le_of_subset (hother.closed hfull) (fun valuation ↦ (hsame valuation).mpr) i j

/-- A set of valuations has one zone at most. -/
theorem Denotes.unique {valuations : Valuation → Prop} (hzone : zone.Denotes clocks valuations)
    (hother : other.Denotes clocks valuations) : zone = other := by
  refine hzone.canonical.ext hother.canonical (hother.clocks_eq.trans hzone.clocks_eq.symm) ?_
  exact fun valuation ↦ (hzone.mem_iff valuation).trans (hother.mem_iff valuation).symm

/-- Only the top zone contains every valuation that is not negative. -/
theorem isTop_iff (hzone : zone.Canonical) : zone.isTop = true ↔
    ∀ valuation : Valuation, valuation.clocks = zone.clocks → valuation.NonNegative →
      valuation ∈ zone := by
  have htop : zone.isTop = true ↔ zone = top zone.clocks := by
    obtain ⟨clocks, matrix⟩ := zone
    simp [isTop, top]
  rw [htop]
  constructor
  · intro heq valuation hclocks hnonnegative
    rw [heq]
    exact ((denotes_top zone.clocks).mem_iff valuation).mpr ⟨hclocks, hnonnegative⟩
  · intro hall
    refine Denotes.unique (hzone.denotes.congr fun valuation ↦ ?_) (denotes_top zone.clocks)
    constructor
    · exact fun hmem ↦ ⟨clocks_of_mem hmem, nonNegative_of_mem hzone hmem⟩
    · exact fun hvaluation ↦ hall valuation hvaluation.1 hvaluation.2

end Zone

end TimedSafety
