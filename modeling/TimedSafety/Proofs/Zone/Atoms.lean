import TimedSafety.Proofs.Zone.Partition

/-!
The atoms of a zone. An atom that stands for a cell is true just where the cell admits the
difference; a cell without an atom is implied, by the sign of clocks or by the bounds of its two
clocks against the reference. So a valuation lies in a zone that is not empty just if all its atoms
are true of it, and where every atom is uniform the zone is met wholly or not at all.
-/

set_option autoImplicit false

namespace TimedSafety

namespace Index

variable {clocks : Nat} {i : Index clocks}

theorem clock?_eq_none_iff : Index.clock? i = none ↔ i = reference := by
  unfold Index.clock? Clock.ofId?
  by_cases hpos : 0 < i.val
  · rw [dif_pos hpos]
    refine ⟨fun hsome ↦ absurd hsome (Option.some_ne_none _), ?_⟩
    rintro rfl
    exact absurd hpos (Nat.lt_irrefl 0)
  · rw [dif_neg hpos]
    exact ⟨fun _ ↦ Fin.ext (Nat.eq_zero_of_not_pos hpos), fun _ ↦ rfl⟩

theorem val_of_clock? {clock : Clock} (hclock : Index.clock? i = some clock) :
    i.val = clock.id := by
  unfold Index.clock? Clock.ofId? at hclock
  split_ifs at hclock with hpos
  exact congrArg Clock.id (Option.some.inj hclock)

end Index

namespace BoundMatrix

variable {clocks : Nat} {may : Fault → Prop}

/-- The atom says what the cell says. It names one clock where the cell is against the reference.
The cell is not that of all valuations, and on a difference it is below what the bounds of the two
clocks imply. -/
structure AtomOf (matrix : BoundMatrix clocks) (i j : Index clocks) (atom : Constraint) :
    Prop where
  isAtom : atom.isAtom = true
  within : atom.Within clocks
  holds_iff : ∀ valuation : Valuation, valuation.clocks = clocks →
    (atom.holds valuation = .ok true ↔
      (matrix.cell i j).Admits (valuation.point clocks i - valuation.point clocks j))
  single_iff : atom.clocks.length = 1 ↔ i = Index.reference ∨ j = Index.reference
  ne_top : matrix.cell i j ≠ (top clocks).cell i j
  lt_sum : i ≠ Index.reference → j ≠ Index.reference →
    matrix.cell i j < (matrix.cell i Index.reference).sum (matrix.cell Index.reference j)

/-- The cell is implied where clocks are not negative and obey their bounds against the
reference. -/
def Implied (matrix : BoundMatrix clocks) (i j : Index clocks) : Prop :=
  ∀ point : Index clocks → Rat, (∀ k, point Index.reference ≤ point k) →
    (i ≠ Index.reference → j ≠ Index.reference →
      (matrix.cell i Index.reference).Admits (point i - point Index.reference) ∧
        (matrix.cell Index.reference j).Admits (point Index.reference - point j)) →
    (matrix.cell i j).Admits (point i - point j)

theorem upper_test_iff (strict : Bool) (value : Int) (difference : Rat) :
    (Comparison.upper strict).test difference value = true ↔
      (Bound.finite value strict).Admits difference := by
  cases strict <;> simp [Comparison.upper, Comparison.test, Bound.Admits]

theorem lower_test_iff (strict : Bool) (value : Int) (difference : Rat) :
    (Comparison.lower strict).test difference (-value : Int) = true ↔
      (Bound.finite value strict).Admits (-difference) := by
  cases strict <;> simp [Comparison.lower, Comparison.test, Bound.Admits] <;> constructor <;>
    intro _ <;> linarith

section Cells

variable {matrix : BoundMatrix clocks} {i j : Index clocks} {value : Int} {strict : Bool}

theorem atomOf_upper {clock : Clock} (hclock : i.val = clock.id)
    (hcell : matrix.cell i Index.reference = .finite value strict) :
    matrix.AtomOf i Index.reference (.compare clock none (.upper strict) value) where
  isAtom := by cases strict <;> rfl
  within := by
    simp only [Constraint.Within, Constraint.clocks, List.forall_mem_singleton, ← hclock]
    exact Nat.le_of_lt_succ i.isLt
  holds_iff valuation hsize := by
    rw [Constraint.holds_unit_iff hsize hclock, hcell, upper_test_iff]
  single_iff := iff_of_true rfl (Or.inr rfl)
  ne_top := by simp [hcell, Valuation.index_ne_reference hclock]
  lt_sum _ hj := absurd rfl hj

theorem atomOf_lower {clock : Clock} (hclock : j.val = clock.id)
    (hcell : matrix.cell Index.reference j = .finite value strict)
    (hzero : Bound.finite value strict ≠ Bound.zero) :
    matrix.AtomOf Index.reference j (.compare clock none (.lower strict) (-value)) where
  isAtom := by cases strict <;> rfl
  within := by
    simp only [Constraint.Within, Constraint.clocks, List.forall_mem_singleton, ← hclock]
    exact Nat.le_of_lt_succ j.isLt
  holds_iff valuation hsize := by
    rw [Constraint.holds_unit_iff hsize hclock, hcell, lower_test_iff, neg_sub]
  single_iff := iff_of_true rfl (Or.inl rfl)
  ne_top := by rwa [hcell, cell_top, if_pos (Or.inr rfl)]
  lt_sum hi := absurd rfl hi

theorem atomOf_difference {left right : Clock} (hleft : i.val = left.id) (hright : j.val = right.id)
    (hij : i ≠ j) (hcell : matrix.cell i j = .finite value strict)
    (hlt : matrix.cell i j <
      (matrix.cell i Index.reference).sum (matrix.cell Index.reference j)) :
    matrix.AtomOf i j (.compare left (some right) (.upper strict) value) where
  isAtom := by cases strict <;> rfl
  within := by
    simp only [Constraint.Within, Constraint.clocks, List.forall_mem_cons, ← hleft, ← hright]
    exact ⟨Nat.le_of_lt_succ i.isLt, Nat.le_of_lt_succ j.isLt, by simp⟩
  holds_iff valuation hsize := by
    rw [Constraint.holds_difference_iff hsize hleft hright, hcell, upper_test_iff]
  single_iff := by
    simp [Constraint.clocks, Valuation.index_ne_reference hleft,
      Valuation.index_ne_reference hright]
  ne_top := by simp [hcell, hij, Valuation.index_ne_reference hleft]
  lt_sum _ _ := hlt

/-- Clocks are not negative. -/
theorem implied_of_eq_zero (hcell : matrix.cell Index.reference j = Bound.zero) :
    matrix.Implied Index.reference j := by
  intro point hnonnegative _
  rw [hcell]
  simp only [Bound.Admits, Int.cast_zero]
  linarith [hnonnegative j]

/-- The bounds of two clocks against the reference add up to one on their difference. -/
theorem implied_of_sum_le (hi : i ≠ Index.reference) (hj : j ≠ Index.reference)
    (hle : (matrix.cell i Index.reference).sum (matrix.cell Index.reference j) ≤
      matrix.cell i j) : matrix.Implied i j := by
  intro point _ hclocks
  obtain ⟨hupper, hlower⟩ := hclocks hi hj
  have hsum := hupper.sum hlower
  rw [sub_add_sub_cancel] at hsum
  exact Bound.admits_of_le hle hsum

end Cells

/-- A cell off the diagonal has an atom that says the same, or is implied. -/
theorem atomAt_yields (hmay : Tolerant may) (matrix : BoundMatrix clocks) {i j : Index clocks}
    (hij : i ≠ j) : Yields may (matrix.atomAt i j) fun found ↦
      found.elim (matrix.Implied i j) (matrix.AtomOf i j) := by
  unfold atomAt
  cases hcell : matrix.cell i j with
  | infinite =>
    intro point _ _
    simp [hcell, Bound.Admits]
  | finite value strict =>
    cases hi : Index.clock? i with
    | none =>
      obtain rfl := Index.clock?_eq_none_iff.mp hi
      cases hj : Index.clock? j with
      | none => exact absurd (Index.clock?_eq_none_iff.mp hj).symm hij
      | some clock =>
        have hclock := Index.val_of_clock? hj
        simp only
        by_cases hzero : Bound.finite value strict = Bound.zero
        · rw [if_pos hzero]
          exact implied_of_eq_zero (hcell.trans hzero)
        · rw [if_neg hzero]
          refine (Word.negate_yields hmay value).bind ?_
          rintro lower rfl
          exact atomOf_lower hclock hcell hzero
    | some left =>
      have hleft := Index.val_of_clock? hi
      cases hj : Index.clock? j with
      | none =>
        obtain rfl := Index.clock?_eq_none_iff.mp hj
        exact atomOf_upper hleft hcell
      | some right =>
        have hright := Index.val_of_clock? hj
        refine (Bound.add_yields (hmay.sum _ _)).bind ?_
        rintro implied rfl
        rw [Yields.pure_iff]
        split_ifs with hle
        · exact implied_of_sum_le (Valuation.index_ne_reference hleft)
            (Valuation.index_ne_reference hright) (hcell ▸ hle)
        · exact atomOf_difference hleft hright hij hcell (hcell ▸ hle)

/-- Every atom of the list stands for a cell, and every cell off the diagonal has an atom in it or
is implied. -/
theorem atoms_yields (hmay : Tolerant may) (matrix : BoundMatrix clocks) :
    Yields may matrix.atoms fun atoms ↦ (∀ atom ∈ atoms, ∃ i j, matrix.AtomOf i j atom) ∧
      ∀ i j, i ≠ j → matrix.Implied i j ∨ ∃ atom ∈ atoms, matrix.AtomOf i j atom := by
  have hcells : Yields may (((Draft.pairs clocks).filter fun pair ↦ pair.1 ≠ pair.2).mapM
      fun pair ↦ matrix.atomAt pair.1 pair.2)
      (List.Forall₂ (fun (pair : Index clocks × Index clocks) found ↦
        Option.elim found (matrix.Implied pair.1 pair.2) (matrix.AtomOf pair.1 pair.2))
        ((Draft.pairs clocks).filter fun pair ↦ pair.1 ≠ pair.2)) := by
    refine Yields.mapM fun pair hpair ↦ ?_
    exact atomAt_yields hmay matrix (of_decide_eq_true (List.mem_filter.mp hpair).2)
  refine hcells.bind fun results hresults ↦ ⟨?_, ?_⟩
  · intro atom hatom
    obtain ⟨found, hfound, hsome⟩ := List.mem_filterMap.mp hatom
    obtain ⟨pair, -, helim⟩ := Yields.exists_related hresults hfound
    obtain rfl : found = some atom := hsome
    exact ⟨pair.1, pair.2, helim⟩
  · intro i j hij
    have hpair : (i, j) ∈ (Draft.pairs clocks).filter fun pair ↦ pair.1 ≠ pair.2 := by
      simpa [Draft.mem_pairs] using hij
    obtain ⟨found, hfound, helim⟩ := Yields.exists_related hresults.flip hpair
    cases found with
    | none => exact Or.inl helim
    | some atom => exact Or.inr ⟨atom, List.mem_filterMap.mpr ⟨some atom, hfound, rfl⟩, helim⟩

end BoundMatrix

namespace Zone

variable {clocks : Nat} {may : Fault → Prop} {valuations : Valuation → Prop} {zone : Zone}

/-- The atoms of a zone that is not empty are inequalities over its clocks, and true together of
just its valuations. -/
theorem atoms_yields (hmay : Tolerant may) (hzone : zone.Denotes clocks valuations)
    (hbottom : zone.isBottom = false) : Yields may zone.atoms fun atoms ↦
      (∀ atom ∈ atoms, atom.isAtom = true ∧ atom.Within clocks) ∧
      ∀ valuation : Valuation, valuation.clocks = clocks → valuation.NonNegative →
        ((∀ atom ∈ atoms, atom.holds valuation = .ok true) ↔ valuations valuation) := by
  obtain rfl := hzone.clocks_eq
  have hclosed := hzone.canonical.closed hbottom
  rw [atoms, if_neg (by simp [hbottom])]
  refine (BoundMatrix.atoms_yields hmay zone.matrix).mono ?_
  rintro atoms ⟨hatoms, hcells⟩
  refine ⟨fun atom hatom ↦ ?_, fun valuation hsize hnonnegative ↦ ?_⟩
  · obtain ⟨i, j, hof⟩ := hatoms atom hatom
    exact ⟨hof.isAtom, hof.within⟩
  rw [← hzone.mem_iff, mem_iff_admits, and_iff_right hsize]
  constructor
  · intro hholds
    have hsigns : ∀ k, valuation.point zone.clocks Index.reference ≤
        valuation.point zone.clocks k := (Valuation.nonNegative_iff hsize).mp hnonnegative
    -- Bounds against the reference are implied by signs alone; the others then by these.
    have hoff : ∀ i j, i ≠ j → (i ≠ Index.reference → j ≠ Index.reference →
        (zone.matrix.cell i Index.reference).Admits (valuation.point zone.clocks i -
          valuation.point zone.clocks Index.reference) ∧
        (zone.matrix.cell Index.reference j).Admits (valuation.point zone.clocks Index.reference -
          valuation.point zone.clocks j)) →
        (zone.matrix.cell i j).Admits
          (valuation.point zone.clocks i - valuation.point zone.clocks j) := by
      intro i j hij hreference
      rcases hcells i j hij with himplied | ⟨atom, hatom, hof⟩
      · exact himplied _ hsigns hreference
      · exact (hof.holds_iff valuation hsize).mp (hholds atom hatom)
    intro i j
    by_cases hij : i = j
    · rw [hij, hclosed.diagonal, sub_self]
      exact Bound.admits_zero_iff.mpr le_rfl
    · refine hoff i j hij fun hi hj ↦ ⟨hoff i _ hi ?_, hoff _ j (Ne.symm hj) ?_⟩
      · exact fun _ habsurd ↦ absurd rfl habsurd
      · exact fun habsurd ↦ absurd rfl habsurd
  · intro hadmits atom hatom
    obtain ⟨i, j, hof⟩ := hatoms atom hatom
    exact (hof.holds_iff valuation hsize).mpr (hadmits i j)

/-- The atoms can be listed, whatever the zone, unless arithmetic overflows. -/
theorem atoms_yields_any (hmay : Tolerant may) (zone : Zone) :
    Yields may zone.atoms fun _ ↦ True := by
  unfold atoms
  split_ifs
  · trivial
  · exact (BoundMatrix.atoms_yields hmay zone.matrix).mono fun _ _ ↦ trivial

/-- A zone on which all atoms of another one are uniform lies inside that one if they meet. -/
theorem subset_of_uniform {atoms : List Constraint}
    (hatoms : (∀ atom ∈ atoms, atom.isAtom = true ∧ atom.Within clocks) ∧
      ∀ valuation : Valuation, valuation.clocks = clocks → valuation.NonNegative →
        ((∀ atom ∈ atoms, atom.holds valuation = .ok true) ↔ valuations valuation))
    (hcanonical : zone.Canonical) (hclocks : zone.clocks = clocks)
    (huniform : UniformOn atoms [zone])
    (hmeets : ∃ valuation ∈ zone, valuations valuation) :
    ∀ valuation ∈ zone, valuations valuation := by
  obtain ⟨common, hcommon, hholding⟩ := hmeets
  have hsize : ∀ valuation ∈ zone, valuation.clocks = clocks := fun valuation hmem ↦
    (clocks_of_mem hmem).trans hclocks
  have hholds := (hatoms.2 common (hsize common hcommon)
    (nonNegative_of_mem hcanonical hcommon)).mpr hholding
  intro valuation hmem
  refine (hatoms.2 valuation (hsize valuation hmem) (nonNegative_of_mem hcanonical hmem)).mp ?_
  intro atom hatom
  rcases huniform atom hatom (hatoms.1 atom hatom).1 zone List.mem_cons_self with hall | hnone
  · exact hall valuation hmem
  · exact absurd (hholds atom hatom) (hnone common hcommon)

end Zone

end TimedSafety
