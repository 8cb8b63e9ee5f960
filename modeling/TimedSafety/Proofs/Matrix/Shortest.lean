import Mathlib.Order.Bounds.Defs
import TimedSafety.Proofs.Matrix.Walks
import TimedSafety.Proofs.Zone.Denotation

/-!
What closing makes of any matrix whose diagonal is `≤ 0`, whether or not its clocks may be below the
reference. If no cycle is negative and simple walks fit a word, every cell becomes the length of a
shortest walk between its indices. If some cycle is negative, the matrix becomes the empty form,
unless a sum overflows first: had the diagonal stayed `≤ 0`, the triangle inequality would carry the
negative cycle over to it. The two cases are `close_exact`.

Closing a second time only compares each cell with sums along detours. So a matrix that obeys the
triangle inequality comes back unchanged if all these sums fit a word, and one of them overflows
otherwise (`close_of_triangle`).
-/

set_option autoImplicit false

namespace TimedSafety.BoundMatrix

variable {clocks : Nat} {matrix closed : BoundMatrix clocks}

/-! ### Closing again -/

/-- All sums along detours fit a word. -/
def DetoursFit (matrix : BoundMatrix clocks) : Prop :=
  ∀ i k j, ((matrix.cell i k).sum (matrix.cell k j)).Fits

instance (matrix : BoundMatrix clocks) : Decidable matrix.DetoursFit :=
  inferInstanceAs (Decidable (∀ i k j, ((matrix.cell i k).sum (matrix.cell k j)).Fits))

/-- Cells that fit a word two at a time leave room for all detours. -/
theorem Limited.detoursFit {limit : Int} (hlimited : matrix.Limited limit)
    (hfits : limit + limit < 2 ^ 63) : matrix.DetoursFit := by
  intro i k j
  by_contra hunfit
  exact (hlimited i k).sumTolerated (hlimited k j) hfits (fun _ ↦ False) hunfit

/-- Improving a row looks at the sums of its detours, so it has a result only if all of them fit. -/
theorem relaxRow_fits (pivot : Index clocks) (through row : Vector Bound (clocks + 1)) :
    Yields (fun _ ↦ True) (relaxRow pivot through row) fun _ ↦
      ∀ j, ((row.get pivot).sum (through.get j)).Fits := by
  unfold relaxRow
  split
  · rename_i hinfinite
    intro j
    rw [hinfinite, Bound.infinite_sum]
    trivial
  · refine Yields.ofFnM (fun j _ ↦ ((row.get pivot).sum (through.get j)).Fits) fun j ↦ ?_
    have hadd : Yields (fun _ ↦ True) ((row.get pivot).add (through.get j)) fun _ ↦
        ((row.get pivot).sum (through.get j)).Fits :=
      Yields.of_forall fun detour hdetour ↦ ((Bound.add_eq_ok_iff _ _ detour).mp hdetour).1
    exact hadd.bind fun _ hfits ↦ hfits

/-- Improving a row by detours that are no shorter than its cells leaves the matrix as it is. -/
theorem relax_of_triangle {pivot : Index clocks}
    (htriangle : ∀ i j, matrix.cell i j ≤ (matrix.cell i pivot).sum (matrix.cell pivot j))
    (i : Index clocks) :
    Yields (fun fault ↦ fault.IsOverflow ∧ ¬ matrix.DetoursFit) (relax pivot matrix i) fun after ↦
      after = matrix ∧ ∀ j, ((matrix.cell i pivot).sum (matrix.cell pivot j)).Fits := by
  have hsum : ∀ j, Bound.SumTolerated (fun fault ↦ fault.IsOverflow ∧ ¬ matrix.DetoursFit)
      (matrix.cell i pivot) (matrix.cell pivot j) :=
    fun j hunfit ↦ ⟨trivial, fun hfit ↦ hunfit (hfit i pivot j)⟩
  have hfits : Yields (fun _ ↦ True) (relax pivot matrix i) fun _ ↦
      ∀ j, ((matrix.cell i pivot).sum (matrix.cell pivot j)).Fits :=
    (relaxRow_fits pivot _ _).bind fun _ hentries ↦ hentries
  refine ((relax_yields hsum).and hfits).mono ?_
  rintro after ⟨hcells, hentries⟩
  refine ⟨ext_cell fun row column ↦ ?_, hentries⟩
  rw [hcells]
  split_ifs with hrow
  · rw [hrow, min_eq_right (htriangle i column)]
  · rfl

/-- Closing a matrix that obeys the triangle inequality gives it back, unless one of the sums that
are tried overflows. -/
theorem close_of_triangle (hdiagonal : ∀ i, matrix.cell i i = Bound.zero)
    (htriangle : ∀ i j k, matrix.cell i j ≤ (matrix.cell i k).sum (matrix.cell k j)) :
    Yields (fun fault ↦ fault.IsOverflow ∧ ¬ matrix.DetoursFit) matrix.close fun after ↦
      after = matrix ∧ matrix.DetoursFit := by
  have hpivot : ∀ pivot, Yields (fun fault ↦ fault.IsOverflow ∧ ¬ matrix.DetoursFit)
      (matrix.relaxAll pivot) fun after ↦ after = matrix ∧
        ∀ i ∈ Index.all clocks, ∀ j, ((matrix.cell i pivot).sum (matrix.cell pivot j)).Fits := by
    intro pivot
    refine Yields.foldlM (fun rows after ↦ after = matrix ∧
      ∀ i ∈ rows, ∀ j, ((matrix.cell i pivot).sum (matrix.cell pivot j)).Fits)
      ⟨rfl, by simp⟩ ?_
    rintro before i after - current ⟨rfl, hbefore⟩
    refine (relax_of_triangle (htriangle · · pivot) i).mono fun _ hafter ↦ ⟨hafter.1, ?_⟩
    simpa [or_imp, forall_and] using ⟨hbefore, hafter.2⟩
  have hpivots : Yields (fun fault ↦ fault.IsOverflow ∧ ¬ matrix.DetoursFit)
      ((Index.all clocks).foldlM relaxAll matrix) fun after ↦ after = matrix ∧
        ∀ k ∈ Index.all clocks, ∀ i j, ((matrix.cell i k).sum (matrix.cell k j)).Fits := by
    refine Yields.foldlM (fun pivots after ↦ after = matrix ∧
      ∀ k ∈ pivots, ∀ i j, ((matrix.cell i k).sum (matrix.cell k j)).Fits) ⟨rfl, by simp⟩ ?_
    rintro before k after - current ⟨rfl, hbefore⟩
    refine (hpivot k).mono fun _ hafter ↦ ⟨hafter.1, ?_⟩
    have hlast : ∀ i j, ((current.cell i k).sum (current.cell k j)).Fits :=
      fun i ↦ hafter.2 i (Index.mem_all i)
    simpa [or_imp, forall_and] using ⟨hbefore, hlast⟩
  unfold close
  rw [if_neg (by simp [isEmpty, hdiagonal])]
  refine hpivots.bind ?_
  rintro after ⟨rfl, hfits⟩
  have hpositive : ¬ after.hasNegativeDiagonal = true := by
    simp [hasNegativeDiagonal_iff, hdiagonal]
  rw [Yields.pure_iff, if_neg hpositive]
  exact ⟨rfl, fun i k ↦ hfits k (Index.mem_all k) i⟩

/-- With room for all detours, closing such a matrix has no effect. -/
theorem close_eq_self (hdiagonal : ∀ i, matrix.cell i i = Bound.zero)
    (htriangle : ∀ i j k, matrix.cell i j ≤ (matrix.cell i k).sum (matrix.cell k j))
    (hfit : matrix.DetoursFit) : matrix.close = .ok matrix := by
  have hyields := close_of_triangle hdiagonal htriangle
  cases hclose : matrix.close with
  | ok after => rw [(hyields.result hclose).1]
  | error fault => exact absurd hfit (hyields.fault hclose).2

/-! ### Shortest walks over all indices -/

theorem subset_all (via : List (Index clocks)) : via ⊆ Index.all clocks := fun i _ ↦ Index.mem_all i

theorem ShortestThrough.isLeast (hshortest : ShortestThrough matrix (Index.all clocks) closed)
    (i j : Index clocks) :
    IsLeast (Set.range fun via ↦ matrix.walk i via j) (closed.cell i j) := by
  constructor
  · obtain ⟨via, -, hcell⟩ := hshortest.attained i j
    exact ⟨via, hcell.symm⟩
  · rintro _ ⟨via, rfl⟩
    exact hshortest.shortest i j via (subset_all via)

/-- Lowering a cell to the length of a walk keeps all points. -/
theorem ShortestThrough.admits_iff (hshortest : ShortestThrough matrix (Index.all clocks) closed)
    (point : Index clocks → Rat) : closed.Admits point ↔ matrix.Admits point := by
  constructor
  · intro hadmits
    exact hadmits.of_cell_le fun i j ↦ hshortest.shortest i j [] (List.nil_subset _)
  · intro hadmits i j
    obtain ⟨via, -, hcell⟩ := hshortest.attained i j
    rw [hcell]
    exact hadmits.walk i via j

/-! ### Negative cycles -/

/-- A matrix with a negative cycle is emptied by closing it, unless a sum overflows. -/
theorem close_of_negative_cycle {may : Fault → Prop} (hmay : Tolerant may)
    (hdiagonal : ∀ i, matrix.cell i i = Bound.zero) {k : Index clocks}
    {cycle : List (Index clocks)} (hnegative : matrix.walk k cycle k < Bound.zero) :
    Yields may matrix.close (· = empty clocks) := by
  refine (close_triangle hmay (Or.inr hdiagonal)).mono ?_
  rintro closed (rfl | ⟨hzero, hle, htriangle⟩)
  · rfl
  · have hthrough : closed.TriangleThrough (Index.all clocks) := fun k _ i j ↦ htriangle i j k
    have hcell : closed.cell k k < Bound.zero :=
      calc closed.cell k k ≤ closed.walk k cycle k := hthrough.cell_le_walk k (subset_all cycle) k
        _ ≤ matrix.walk k cycle k := walk_le_walk hle k cycle k
        _ < Bound.zero := hnegative
    rw [hzero] at hcell
    exact absurd hcell (lt_irrefl _)

/-! ### Both cases -/

/-- Closing succeeds and gives the tightest form of the matrix. -/
structure ClosesTo (matrix closed : BoundMatrix clocks) : Prop where
  close_eq : matrix.close = .ok closed
  isEmpty_eq : closed.isEmpty = false
  shortest : ∀ i j, IsLeast (Set.range fun via ↦ matrix.walk i via j) (closed.cell i j)
  triangle : ∀ i j k, closed.cell i j ≤ (closed.cell i k).sum (closed.cell k j)
  cell_le : ∀ i j, closed.cell i j ≤ matrix.cell i j
  mem_iff : ∀ valuation, valuation ∈ Zone.mk clocks closed ↔ valuation ∈ Zone.mk clocks matrix
  again : closed.close = .ok closed

/-- Closing a matrix whose diagonal is `≤ 0`. Without negative cycles, and with cells so small that
simple walks fit a word twice, it gives the lengths of shortest walks. With a negative cycle, the
matrix has no valuations and becomes the empty form, unless a sum overflows. -/
theorem close_exact (hdiagonal : ∀ i, matrix.cell i i = Bound.zero) :
    (matrix.NoNegativeCycle → ∀ limit, matrix.Limited limit →
      2 * (clocks + 1 : Nat) * limit < 2 ^ 63 → ∃ closed, matrix.ClosesTo closed) ∧
    ((∃ k cycle, matrix.walk k cycle k < Bound.zero) →
      Yields Fault.IsOverflow matrix.close (fun closed ↦
        closed.isEmpty = true ∧ ∀ i j, closed.cell i j = Bound.below 0) ∧
      ∀ valuation, valuation ∉ Zone.mk clocks matrix) := by
  constructor
  · intro hcycle limit hlimited hfits
    rw [mul_assoc] at hfits
    -- The diagonal is among the limited cells, so the limit is not negative.
    have hlimit : 0 ≤ limit := by
      have hzero := hlimited Index.reference Index.reference
      rw [hdiagonal] at hzero
      exact hzero.2
    obtain ⟨closed, hclose, hshortest⟩ :=
      (close_shortest hdiagonal hcycle hlimited hlimit hfits).exists_ok
    have hzero := hshortest.diagonal hcycle hdiagonal
    have htriangle : ∀ i j k, closed.cell i j ≤ (closed.cell i k).sum (closed.cell k j) :=
      fun i j k ↦ hshortest.triangle k (Index.mem_all k) i j
    refine ⟨closed, hclose, by simp [isEmpty, hzero], hshortest.isLeast, htriangle, ?_, ?_, ?_⟩
    · exact fun i j ↦ hshortest.shortest i j [] (List.nil_subset _)
    · intro valuation
      rw [Zone.mem_iff_admits, Zone.mem_iff_admits, hshortest.admits_iff]
    · refine close_eq_self hzero htriangle ?_
      exact (hshortest.limited hcycle hlimited hlimit).detoursFit (by omega)
  · rintro ⟨k, cycle, hnegative⟩
    constructor
    · refine (close_of_negative_cycle tolerant_isOverflow hdiagonal hnegative).mono ?_
      rintro closed rfl
      exact ⟨isEmpty_empty, cell_empty⟩
    · intro valuation hmem
      have hadmits := ((Zone.mem_iff_admits _ valuation).mp hmem).2
      exact absurd hnegative (not_lt.mpr (hadmits.noNegativeCycle k cycle))

/-- The first clock is at most three, and the second at most one ahead of it. -/
def ramp : BoundMatrix 2 :=
  ⟨#v[#v[.atMost 0, .atMost 0, .atMost 0], #v[.atMost 3, .atMost 0, .infinite],
    #v[.infinite, .atMost 1, .atMost 0]]⟩

/-- The first clock is below the second, and the second is not above the first. -/
def knot : BoundMatrix 2 :=
  ⟨#v[#v[.atMost 0, .atMost 0, .atMost 0], #v[.infinite, .atMost 0, .below 0],
    #v[.infinite, .atMost 0, .atMost 0]]⟩

/-- The ramp is closed to shortest walks, and the knot is emptied. -/
theorem close_exact_ramp_knot :
    ((∀ i, ramp.cell i i = Bound.zero) ∧ ramp.NoNegativeCycle ∧ ramp.Limited 3 ∧
      ∃ closed, ramp.ClosesTo closed) ∧
    (∀ i, knot.cell i i = Bound.zero) ∧ (∃ k cycle, knot.walk k cycle k < Bound.zero) ∧
      Yields Fault.IsOverflow knot.close (fun closed ↦
        closed.isEmpty = true ∧ ∀ i j, closed.cell i j = Bound.below 0) ∧
      ∀ valuation, valuation ∉ Zone.mk 2 knot := by
  have hramp : ∀ i, ramp.cell i i = Bound.zero := by decide
  have hknot : ∀ i, knot.cell i i = Bound.zero := by decide
  have hcycle : ramp.NoNegativeCycle := by
    have hadmits : ramp.Admits fun _ ↦ 0 := by
      unfold Admits
      decide +kernel
    exact hadmits.noNegativeCycle
  have hlimited : ramp.Limited 3 := by decide
  have hnegative : ∃ k cycle, knot.walk k cycle k < Bound.zero :=
    ⟨⟨1, by decide⟩, [⟨2, by decide⟩], by decide⟩
  exact ⟨⟨hramp, hcycle, hlimited, (close_exact hramp).1 hcycle 3 hlimited (by decide)⟩,
    hknot, hnegative, (close_exact hknot).2 hnegative⟩

end TimedSafety.BoundMatrix
