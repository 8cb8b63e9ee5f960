import TimedSafety.Automaton.Run
import TimedSafety.Proofs.Matrix.Closure
import TimedSafety.Proofs.Valuation

/-!
The sets of valuations that drafts and zones stand for. A draft or zone denotes a set if it contains
exactly its valuations and its matrix is in order: canonical for a zone and for a draft that is not
loose, well formed for a loose one. An operation is then described by what it makes of the denoted
set, whether or not it closes the matrix on the way.

This module treats the operations that tighten cells: restricting by constraints, meeting another
zone, and closing at the end. Which valuations restricting and closing keep does not depend on the
matrix being in order (`restrict_mem`, `settle_mem`); that they keep it in order is said apart
(`restrict_sound`, `settle_sound`).
-/

set_option autoImplicit false

namespace TimedSafety

/-! ### Zones -/

namespace Zone

/-- The matrix of the zone is the empty form or closed. -/
def Canonical (zone : Zone) : Prop := zone.matrix.Canonical

theorem mem_iff_admits (zone : Zone) (valuation : Valuation) :
    valuation ∈ zone ↔ valuation.clocks = zone.clocks ∧
      zone.matrix.Admits (valuation.point zone.clocks) := by
  have hobeys : zone.obeys valuation = true ↔
      zone.matrix.Admits (valuation.point zone.clocks) := by
    simp [obeys, BoundMatrix.Admits, Valuation.point]
  rw [mem_iff, hobeys]
  constructor
  · rintro ⟨hclocks, -, hadmits⟩
    exact ⟨hclocks, hadmits⟩
  · rintro ⟨hclocks, hadmits⟩
    exact ⟨hclocks, hadmits.isEmpty_eq, hadmits⟩

theorem isBottom_of_mem {zone : Zone} {valuation : Valuation} (hmem : valuation ∈ zone) :
    zone.isBottom = false := ((mem_iff zone valuation).mp hmem).2.1

theorem clocks_of_mem {zone : Zone} {valuation : Valuation} (hmem : valuation ∈ zone) :
    valuation.clocks = zone.clocks := ((mem_iff zone valuation).mp hmem).1

/-- The zone is over the given number of clocks, in order, and contains just these valuations. -/
structure Denotes (zone : Zone) (clocks : Nat) (valuations : Valuation → Prop) : Prop where
  clocks_eq : zone.clocks = clocks
  canonical : zone.Canonical
  mem_iff : ∀ valuation, valuation ∈ zone ↔ valuations valuation

/-- A canonical zone denotes what it contains. -/
theorem Canonical.denotes {zone : Zone} (hcanonical : zone.Canonical) :
    zone.Denotes zone.clocks (· ∈ zone) :=
  ⟨rfl, hcanonical, fun _ ↦ Iff.rfl⟩

theorem Denotes.congr {zone : Zone} {clocks : Nat} {valuations others : Valuation → Prop}
    (hzone : zone.Denotes clocks valuations)
    (hsame : ∀ valuation, valuations valuation ↔ others valuation) :
    zone.Denotes clocks others :=
  ⟨hzone.clocks_eq, hzone.canonical, fun valuation ↦
    (hzone.mem_iff valuation).trans (hsame valuation)⟩

/-- A zone that denotes something denotes its own members. -/
theorem Denotes.members {zone : Zone} {clocks : Nat} {valuations : Valuation → Prop}
    (hzone : zone.Denotes clocks valuations) : zone.Denotes clocks (· ∈ zone) :=
  hzone.congr fun valuation ↦ (hzone.mem_iff valuation).symm

end Zone

namespace Valuation

/-- No clock is below zero. -/
def NonNegative (valuation : Valuation) : Prop := ∀ value ∈ valuation.values, 0 ≤ value

theorem nonNegative_iff {clocks : Nat} {valuation : Valuation}
    (hclocks : valuation.clocks = clocks) :
    valuation.NonNegative ↔ ∀ i, 0 ≤ valuation.point clocks i := by
  constructor
  · intro hvalues i
    induction i using Fin.cases with
    | zero => exact le_of_eq rfl
    | succ i =>
      have hi : i.val < valuation.values.length := hclocks ▸ i.isLt
      rw [point, Fin.val_succ, coordinate_succ _ hi]
      exact hvalues _ (List.getElem_mem hi)
  · intro hpoint value hvalue
    obtain ⟨row, hrow, rfl⟩ := List.getElem_of_mem hvalue
    have hlt : row < clocks := hclocks ▸ hrow
    have hcoordinate := hpoint ⟨row + 1, Nat.succ_lt_succ hlt⟩
    rwa [point, coordinate_succ _ hrow] at hcoordinate

end Valuation

/-- The valuations of a zone in order are not negative. -/
theorem Zone.nonNegative_of_mem {zone : Zone} (hcanonical : zone.Canonical) {valuation : Valuation}
    (hmem : valuation ∈ zone) : valuation.NonNegative := by
  obtain ⟨hclocks, hadmits⟩ := (mem_iff_admits zone valuation).mp hmem
  exact (Valuation.nonNegative_iff hclocks).mpr
    ((hcanonical.closed (isBottom_of_mem hmem)).reference_le hadmits)

/-! ### Drafts -/

namespace Draft

variable {clocks : Nat} {may : Fault → Prop} {draft : Draft clocks} {valuations : Valuation → Prop}

instance : Membership Valuation (Draft clocks) :=
  ⟨fun draft valuation ↦
    valuation.clocks = clocks ∧ draft.matrix.Admits (valuation.point clocks)⟩

theorem mem_iff_admits (draft : Draft clocks) (valuation : Valuation) :
    valuation ∈ draft ↔ valuation.clocks = clocks ∧
      draft.matrix.Admits (valuation.point clocks) := Iff.rfl

/-- The matrix is well formed, and canonical unless the draft is loose. -/
structure Sound (draft : Draft clocks) : Prop where
  wellFormed : draft.matrix.WellFormed
  canonical : draft.loose = false → draft.matrix.Canonical

/-- The draft is in order and contains just these valuations. -/
structure Denotes (draft : Draft clocks) (valuations : Valuation → Prop) : Prop extends
    Sound draft where
  mem_iff : ∀ valuation, valuation ∈ draft ↔ valuations valuation

theorem Denotes.congr {others : Valuation → Prop} (hdraft : draft.Denotes valuations)
    (hsame : ∀ valuation, valuations valuation ↔ others valuation) :
    draft.Denotes others :=
  ⟨hdraft.toSound, fun valuation ↦ (hdraft.mem_iff valuation).trans (hsame valuation)⟩

theorem denotes_draft {zone : Zone} {clocks : Nat} (hzone : zone.Denotes clocks valuations) :
    zone.draft.Denotes valuations where
  wellFormed := hzone.canonical.wellFormed
  canonical _ := hzone.canonical
  mem_iff valuation := by
    rw [← hzone.mem_iff, Zone.mem_iff_admits]
    rfl

theorem denotes_empty : (⟨.empty clocks, false⟩ : Draft clocks).Denotes fun _ ↦ False where
  wellFormed := Or.inl rfl
  canonical _ := Or.inl rfl
  mem_iff valuation := by simp [mem_iff_admits]

/-- Closing a draft does not change its valuations. -/
theorem settle_mem (hmay : Tolerant may) (draft : Draft clocks) :
    Yields may draft.settle fun settled ↦ ∀ valuation, valuation ∈ settled ↔ valuation ∈ draft := by
  unfold settle
  split_ifs
  · refine (BoundMatrix.close_admits hmay draft.matrix).bind fun closed hadmits valuation ↦ ?_
    rw [mem_iff_admits, mem_iff_admits, hadmits]
  · exact fun _ ↦ Iff.rfl

theorem settle_sound (hmay : Tolerant may) (hdraft : draft.Sound) :
    Yields may draft.settle fun settled ↦ settled.Sound ∧ settled.loose = false := by
  unfold settle
  by_cases hloose : draft.loose = true
  · rw [if_pos hloose]
    refine (BoundMatrix.close_canonical hmay hdraft.wellFormed).bind fun closed hcanonical ↦ ?_
    exact ⟨⟨hcanonical.wellFormed, fun _ ↦ hcanonical⟩, rfl⟩
  · rw [if_neg hloose]
    exact ⟨hdraft, Bool.not_eq_true _ ▸ hloose⟩

/-- Closing a draft does not change what it denotes. -/
theorem settle_yields (hmay : Tolerant may) (hdraft : draft.Denotes valuations) :
    Yields may draft.settle fun settled ↦ settled.Denotes valuations ∧ settled.loose = false := by
  refine ((settle_sound hmay hdraft.toSound).and (settle_mem hmay draft)).mono ?_
  rintro settled ⟨⟨hsound, hloose⟩, hmem⟩
  exact ⟨⟨hsound, fun valuation ↦ (hmem valuation).trans (hdraft.mem_iff valuation)⟩, hloose⟩

theorem finish_mem (hmay : Tolerant may) (draft : Draft clocks) :
    Yields may draft.finish fun zone ↦ ∀ valuation, valuation ∈ zone ↔ valuation ∈ draft := by
  unfold finish
  refine (settle_mem hmay draft).bind fun settled hsettled valuation ↦ ?_
  rw [← hsettled, Zone.mem_iff_admits]
  rfl

theorem finish_yields (hmay : Tolerant may) (hdraft : draft.Denotes valuations) :
    Yields may draft.finish (·.Denotes clocks valuations) := by
  unfold finish
  refine (settle_yields hmay hdraft).bind ?_
  rintro settled ⟨hsettled, hloose⟩
  refine ⟨rfl, hsettled.canonical hloose, fun valuation ↦ ?_⟩
  rw [← hsettled.mem_iff, Zone.mem_iff_admits]
  rfl

/-! ### Restricting -/

theorem tighten_mem (hmay : Tolerant may) (draft : Draft clocks) (i j : Index clocks)
    (bound : Bound) : Yields may (draft.tighten i j bound) fun after ↦ ∀ valuation,
      valuation ∈ after ↔ valuation ∈ draft ∧
        bound.Admits (valuation.point clocks i - valuation.point clocks j) := by
  unfold tighten
  refine (BoundMatrix.constrain_admits hmay draft.matrix i j bound).bind
    fun matrix hadmits valuation ↦ ?_
  rw [mem_iff_admits, mem_iff_admits, hadmits, and_assoc]

theorem tighten_sound (hmay : Tolerant may) (hdraft : draft.Sound) (i j : Index clocks)
    (bound : Bound) : Yields may (draft.tighten i j bound) Sound := by
  unfold tighten
  refine (BoundMatrix.constrain_wellFormed hmay hdraft.wellFormed i j bound).bind
    fun matrix hmatrix ↦ ⟨hmatrix, fun hloose ↦ ?_⟩
  refine Or.inl (hmatrix.isEmpty_iff.mp ?_)
  simpa using hloose

/-- A comparison, as the bounds that it sets to a difference. -/
theorem admits_compare (comparison : Comparison) (bound : Int) (difference : Rat) :
    comparison.test difference bound = true ↔
      match comparison with
      | .less => (Bound.below bound).Admits difference
      | .atMost => (Bound.atMost bound).Admits difference
      | .equal => (Bound.atMost bound).Admits difference ∧
          (Bound.atMost (-bound)).Admits (-difference)
      | .atLeast => (Bound.atMost (-bound)).Admits (-difference)
      | .greater => (Bound.below (-bound)).Admits (-difference) := by
  cases comparison with
  | equal => simp [Comparison.test, Bound.Admits, le_antisymm_iff (a := difference)]
  | _ => simp [Comparison.test, Bound.Admits]

theorem compare_mem (hmay : Tolerant may) (draft : Draft clocks) (i j : Index clocks)
    (comparison : Comparison) (bound : Int) :
    Yields may (draft.compare i j comparison bound) fun after ↦ ∀ valuation,
      valuation ∈ after ↔ valuation ∈ draft ∧ comparison.test
        (valuation.point clocks i - valuation.point clocks j) bound = true := by
  unfold compare
  cases comparison with
  | less =>
    refine (tighten_mem hmay draft i j _).mono fun after hafter valuation ↦ ?_
    rw [hafter, admits_compare]
  | atMost =>
    refine (tighten_mem hmay draft i j _).mono fun after hafter valuation ↦ ?_
    rw [hafter, admits_compare]
  | equal =>
    refine (tighten_mem hmay draft i j _).bind fun upper hupper ↦ ?_
    refine (Word.negate_yields hmay bound).bind ?_
    rintro opposite rfl
    refine (tighten_mem hmay upper j i _).mono fun after hafter valuation ↦ ?_
    rw [hafter, hupper, admits_compare, neg_sub, and_assoc]
  | atLeast =>
    refine (Word.negate_yields hmay bound).bind ?_
    rintro opposite rfl
    refine (tighten_mem hmay draft j i _).mono fun after hafter valuation ↦ ?_
    rw [hafter, admits_compare, neg_sub]
  | greater =>
    refine (Word.negate_yields hmay bound).bind ?_
    rintro opposite rfl
    refine (tighten_mem hmay draft j i _).mono fun after hafter valuation ↦ ?_
    rw [hafter, admits_compare, neg_sub]

/-- A comparison keeps what tightening cells to its constant and to the opposite one keeps. -/
theorem compare_keeps {property : Draft clocks → Prop} (hdraft : property draft) {bound : Int}
    (hnegate : Yields may (Word.negate bound) (· = -bound))
    (htighten : ∀ current, property current → ∀ i j value strict, value = bound ∨ value = -bound →
      Yields may (current.tighten i j (.finite value strict)) property)
    (i j : Index clocks) (comparison : Comparison) :
    Yields may (draft.compare i j comparison bound) property := by
  unfold compare
  cases comparison with
  | less | atMost => exact htighten draft hdraft i j bound _ (Or.inl rfl)
  | equal =>
    refine (htighten draft hdraft i j bound _ (Or.inl rfl)).bind fun upper hupper ↦ ?_
    exact hnegate.bind fun opposite hopposite ↦
      htighten upper hupper j i opposite _ (Or.inr hopposite)
  | atLeast | greater =>
    exact hnegate.bind fun opposite hopposite ↦
      htighten draft hdraft j i opposite _ (Or.inr hopposite)

theorem compare_sound (hmay : Tolerant may) (hdraft : draft.Sound) (i j : Index clocks)
    (comparison : Comparison) (bound : Int) :
    Yields may (draft.compare i j comparison bound) Sound :=
  compare_keeps hdraft (Word.negate_yields hmay bound)
    (fun _ hcurrent i j _ _ _ ↦ tighten_sound hmay hcurrent i j _) i j comparison

end Draft

/-- A fault for a clock of the constraint that is out of range is an admitted one. -/
def Constraint.Tolerated (may : Fault → Prop) (clocks : Nat) (constraint : Constraint) : Prop :=
  ∀ clock ∈ constraint.clocks, clocks < clock.id → may (.clockOutOfRange clock clocks)

/-- Constraints over clocks in range cause no such fault. -/
theorem Constraint.Within.tolerated {constraint : Constraint} {clocks : Nat}
    (hwithin : constraint.Within clocks) (may : Fault → Prop) :
    constraint.Tolerated may clocks := fun clock hclock hlt ↦
  absurd (hwithin clock hclock) (not_le.mpr hlt)

theorem Constraint.tolerated_true (constraint : Constraint) (clocks : Nat) :
    constraint.Tolerated (fun _ ↦ True) clocks := fun _ _ _ ↦ trivial

namespace Draft

variable {clocks : Nat} {may : Fault → Prop} {draft : Draft clocks}
  {valuations : Valuation → Prop}

theorem restrict_mem (hmay : Tolerant may) (draft : Draft clocks) {constraint : Constraint}
    (hconstraint : constraint.Tolerated may clocks) :
    Yields may (draft.restrict constraint) fun after ↦ ∀ valuation,
      valuation ∈ after ↔ valuation ∈ draft ∧ constraint.holds valuation = .ok true := by
  unfold restrict
  cases constraint with
  | always => exact fun valuation ↦ by simp [Constraint.holds]
  | never => exact fun valuation ↦ by simp [denotes_empty.mem_iff, Constraint.holds]
  | compare left right comparison bound =>
    cases right with
    | none =>
      refine (Valuation.indexOf_yields (hconstraint left (by simp [Constraint.clocks]))).bind
        fun i hi ↦ ?_
      refine (compare_mem hmay draft i Index.reference comparison bound).mono
        fun after hafter valuation ↦ (hafter valuation).trans (and_congr_right fun hmem ↦ ?_)
      rw [Constraint.holds_unit_iff hmem.1 hi]
    | some right =>
      refine (Valuation.indexOf_yields (hconstraint left (by simp [Constraint.clocks]))).bind
        fun i hi ↦ ?_
      refine (Valuation.indexOf_yields (hconstraint right (by simp [Constraint.clocks]))).bind
        fun j hj ↦ ?_
      refine (compare_mem hmay draft i j comparison bound).mono
        fun after hafter valuation ↦ (hafter valuation).trans (and_congr_right fun hmem ↦ ?_)
      rw [Constraint.holds_difference_iff hmem.1 hi hj]

/-- Restricting keeps what emptying a draft and comparing its indices keep. -/
theorem restrict_keeps {property : Draft clocks → Prop} (hdraft : property draft)
    (hempty : property ⟨.empty clocks, false⟩) {constraint : Constraint}
    (hconstraint : constraint.Tolerated may clocks)
    (hcompare : ∀ left right comparison bound, constraint = .compare left right comparison bound →
      ∀ i j, Yields may (draft.compare i j comparison bound) property) :
    Yields may (draft.restrict constraint) property := by
  unfold restrict
  cases constraint with
  | always => exact hdraft
  | never => exact hempty
  | compare left right comparison bound =>
    have hindices := hcompare left right comparison bound rfl
    have hmem : left ∈ (Constraint.compare left right comparison bound).clocks := by
      cases right <;> simp [Constraint.clocks]
    have hleft := Valuation.indexOf_yields (hconstraint left hmem)
    cases right with
    | none => exact hleft.bind fun i _ ↦ hindices i Index.reference
    | some right =>
      have hright := Valuation.indexOf_yields (hconstraint right (by simp [Constraint.clocks]))
      exact hleft.bind fun i _ ↦ hright.bind fun j _ ↦ hindices i j

theorem restrict_sound (hmay : Tolerant may) (hdraft : draft.Sound) {constraint : Constraint}
    (hconstraint : constraint.Tolerated may clocks) :
    Yields may (draft.restrict constraint) Sound :=
  restrict_keeps hdraft denotes_empty.toSound hconstraint
    fun _ _ comparison bound _ i j ↦ compare_sound hmay hdraft i j comparison bound

theorem restrict_yields (hmay : Tolerant may) (hdraft : draft.Denotes valuations)
    {constraint : Constraint} (hconstraint : constraint.Tolerated may clocks) :
    Yields may (draft.restrict constraint) (·.Denotes fun valuation ↦
      valuations valuation ∧ constraint.holds valuation = .ok true) := by
  refine ((restrict_sound hmay hdraft.toSound hconstraint).and
    (restrict_mem hmay draft hconstraint)).mono fun after hafter ↦ ⟨hafter.1, fun valuation ↦ ?_⟩
  rw [hafter.2, hdraft.mem_iff]

theorem restrictAll_mem (hmay : Tolerant may) (draft : Draft clocks)
    {constraints : List Constraint}
    (hconstraints : ∀ constraint ∈ constraints, constraint.Tolerated may clocks) :
    Yields may (draft.restrictAll constraints) fun after ↦ ∀ valuation,
      valuation ∈ after ↔ valuation ∈ draft ∧ valuation.Satisfies constraints := by
  refine Yields.foldlM (fun applied (current : Draft clocks) ↦ ∀ valuation,
    valuation ∈ current ↔ valuation ∈ draft ∧ valuation.Satisfies applied)
    (fun valuation ↦ by simp [Valuation.Satisfies]) ?_
  intro before next after helements current hcurrent
  refine (restrict_mem hmay current (hconstraints next (by simp [helements]))).mono
    fun restricted hrestricted valuation ↦ ?_
  rw [hrestricted, hcurrent]
  simp only [Valuation.Satisfies, List.forall_mem_append, List.forall_mem_singleton, and_assoc]

theorem restrictAll_sound (hmay : Tolerant may) (hdraft : draft.Sound)
    {constraints : List Constraint}
    (hconstraints : ∀ constraint ∈ constraints, constraint.Tolerated may clocks) :
    Yields may (draft.restrictAll constraints) Sound :=
  Yields.foldlM_const hdraft fun constraint hmem _ hcurrent ↦
    restrict_sound hmay hcurrent (hconstraints constraint hmem)

theorem restrictAll_yields (hmay : Tolerant may) (hdraft : draft.Denotes valuations)
    {constraints : List Constraint}
    (hconstraints : ∀ constraint ∈ constraints, constraint.Tolerated may clocks) :
    Yields may (draft.restrictAll constraints) (·.Denotes fun valuation ↦
      valuations valuation ∧ valuation.Satisfies constraints) := by
  refine ((restrictAll_sound hmay hdraft.toSound hconstraints).and
    (restrictAll_mem hmay draft hconstraints)).mono
      fun after hafter ↦ ⟨hafter.1, fun valuation ↦ ?_⟩
  rw [hafter.2, hdraft.mem_iff]

/-! ### Meeting -/

theorem mem_pairs (i j : Index clocks) : (i, j) ∈ pairs clocks := by
  simp [pairs]

/-- Tightening to the cells of a grounded matrix keeps its points. -/
theorem meetCells_mem (hmay : Tolerant may) (draft : Draft clocks) {matrix : BoundMatrix clocks}
    (hmatrix : matrix.Grounded) :
    Yields may (draft.meetCells matrix) fun after ↦ ∀ valuation,
      valuation ∈ after ↔ valuation ∈ draft ∧ matrix.Admits (valuation.point clocks) := by
  have hfold : Yields may (draft.meetCells matrix) fun after ↦ ∀ valuation,
      valuation ∈ after ↔ valuation ∈ draft ∧ ∀ pair ∈ pairs clocks,
        (matrix.cell pair.1 pair.2).Admits
          (valuation.point clocks pair.1 - valuation.point clocks pair.2) := by
    refine Yields.foldlM (fun (done : List (Index clocks × Index clocks))
      (current : Draft clocks) ↦ ∀ valuation, valuation ∈ current ↔
        valuation ∈ draft ∧ ∀ pair ∈ done, (matrix.cell pair.1 pair.2).Admits
          (valuation.point clocks pair.1 - valuation.point clocks pair.2))
      (fun valuation ↦ by simp) ?_
    rintro before ⟨i, j⟩ after - current hcurrent
    simp only [List.forall_mem_append, List.forall_mem_singleton, ← and_assoc, ← hcurrent]
    split_ifs with hskip
    · -- Such a cell admits every difference of a valuation.
      refine fun valuation ↦ (and_iff_left ?_).symm
      rcases hskip with rfl | hinfinite
      · simp [hmatrix.diagonal, Bound.Admits]
      · simp [hinfinite, Bound.Admits]
    · exact tighten_mem hmay current i j _
  refine hfold.mono fun after hafter valuation ↦
    (hafter valuation).trans (and_congr_right fun _ ↦ ?_)
  exact ⟨fun hpairs i j ↦ hpairs (i, j) (mem_pairs i j), fun hadmits pair _ ↦ hadmits _ _⟩

theorem meetCells_sound (hmay : Tolerant may) (hdraft : draft.Sound)
    (matrix : BoundMatrix clocks) : Yields may (draft.meetCells matrix) Sound := by
  refine Yields.foldlM_const hdraft fun pair _ current hcurrent ↦ ?_
  dsimp only
  split_ifs
  · exact hcurrent
  · exact tighten_sound hmay hcurrent _ _ _

/-- Meeting a zone empties the draft, or tightens it to the cells of a grounded matrix. -/
theorem meet_cases (draft : Draft clocks) {zone : Zone} {others : Valuation → Prop}
    (hzone : zone.Denotes clocks others) :
    (draft.meet zone = .ok ⟨.empty clocks, false⟩ ∧ ∀ valuation, ¬ others valuation) ∨
      ∃ matrix : BoundMatrix clocks, draft.meet zone = draft.meetCells matrix ∧ matrix.Grounded ∧
        ∀ valuation, others valuation ↔
          valuation.clocks = clocks ∧ matrix.Admits (valuation.point clocks) := by
  obtain ⟨size, matrix⟩ := zone
  obtain rfl : size = clocks := hzone.clocks_eq
  unfold meet
  rw [dif_pos rfl]
  by_cases hbottom : Zone.isBottom ⟨size, matrix⟩ = true
  · refine Or.inl ⟨if_pos hbottom, fun valuation hother ↦ ?_⟩
    rw [Zone.isBottom_of_mem ((hzone.mem_iff valuation).mpr hother)] at hbottom
    contradiction
  · refine Or.inr ⟨matrix, if_neg hbottom, ?_, fun valuation ↦ ?_⟩
    · exact BoundMatrix.WellFormed.grounded hzone.canonical.wellFormed
        (Bool.not_eq_true _ ▸ hbottom)
    · rw [← hzone.mem_iff, Zone.mem_iff_admits]

theorem meet_mem (hmay : Tolerant may) (draft : Draft clocks) {zone : Zone}
    {others : Valuation → Prop} (hzone : zone.Denotes clocks others) :
    Yields may (draft.meet zone) fun after ↦ ∀ valuation,
      valuation ∈ after ↔ valuation ∈ draft ∧ others valuation := by
  rcases draft.meet_cases hzone with ⟨hmeet, hnone⟩ | ⟨matrix, hmeet, hgrounded, hothers⟩
  · rw [hmeet]
    exact fun valuation ↦ by simp [denotes_empty.mem_iff, hnone]
  · rw [hmeet]
    refine (meetCells_mem hmay draft hgrounded).mono fun after hafter valuation ↦ ?_
    rw [hafter, hothers]
    exact and_congr_right fun hmem ↦ (and_iff_right hmem.1).symm

theorem meet_sound (hmay : Tolerant may) (hdraft : draft.Sound) {zone : Zone}
    {others : Valuation → Prop} (hzone : zone.Denotes clocks others) :
    Yields may (draft.meet zone) Sound := by
  rcases draft.meet_cases hzone with ⟨hmeet, -⟩ | ⟨matrix, hmeet, -⟩
  · rw [hmeet]
    exact denotes_empty.toSound
  · rw [hmeet]
    exact meetCells_sound hmay hdraft matrix

theorem meet_yields (hmay : Tolerant may) (hdraft : draft.Denotes valuations) {zone : Zone}
    {others : Valuation → Prop} (hzone : zone.Denotes clocks others) :
    Yields may (draft.meet zone) (·.Denotes fun valuation ↦
      valuations valuation ∧ others valuation) := by
  refine ((meet_sound hmay hdraft.toSound hzone).and (meet_mem hmay draft hzone)).mono
    fun after hafter ↦ ⟨hafter.1, fun valuation ↦ ?_⟩
  rw [hafter.2, hdraft.mem_iff]

end Draft

/-! ### Zones again -/

namespace Zone

variable {clocks : Nat} {may : Fault → Prop} {zone : Zone} {valuations : Valuation → Prop}

theorem denotes_top (clocks : Nat) : (top clocks).Denotes clocks fun valuation ↦
    valuation.clocks = clocks ∧ valuation.NonNegative where
  clocks_eq := rfl
  canonical := Or.inr BoundMatrix.closed_top
  mem_iff valuation := by
    rw [mem_iff_admits]
    refine and_congr_right fun hclocks ↦ ?_
    exact (BoundMatrix.top_admits_iff _).trans (Valuation.nonNegative_iff hclocks).symm

theorem denotes_zero (clocks : Nat) : (zero clocks).Denotes clocks (· = Valuation.zero clocks) where
  clocks_eq := rfl
  canonical := Or.inr BoundMatrix.closed_zero
  mem_iff valuation := by
    rw [mem_iff_admits]
    constructor
    · rintro ⟨hclocks, hadmits⟩
      refine Valuation.eq_of_point_eq hclocks (Valuation.clocks_zero clocks) (funext fun i ↦ ?_)
      exact ((BoundMatrix.zero_admits_iff _).mp hadmits i).trans
        (congrFun (Valuation.point_zero clocks) i).symm
    · rintro rfl
      refine ⟨Valuation.clocks_zero clocks, (BoundMatrix.zero_admits_iff _).mpr fun i ↦ ?_⟩
      exact congrFun (Valuation.point_zero clocks) i

theorem denotes_bottom (clocks : Nat) : (bottom clocks).Denotes clocks fun _ ↦ False where
  clocks_eq := rfl
  canonical := Or.inl rfl
  mem_iff valuation := by
    rw [mem_iff_admits]
    simp [bottom]

theorem restrict_yields (hmay : Tolerant may) (hzone : zone.Denotes clocks valuations)
    {constraint : Constraint} (hconstraint : constraint.Tolerated may clocks) :
    Yields may (zone.restrict constraint) (·.Denotes clocks fun valuation ↦
      valuations valuation ∧ constraint.holds valuation = .ok true) := by
  obtain rfl := hzone.clocks_eq
  exact (Draft.restrict_yields hmay (Draft.denotes_draft hzone) hconstraint).bind
    fun _ hdraft ↦ Draft.finish_yields hmay hdraft

theorem restrictAll_yields (hmay : Tolerant may) (hzone : zone.Denotes clocks valuations)
    {constraints : List Constraint}
    (hconstraints : ∀ constraint ∈ constraints, constraint.Tolerated may clocks) :
    Yields may (zone.restrictAll constraints) (·.Denotes clocks fun valuation ↦
      valuations valuation ∧ valuation.Satisfies constraints) := by
  obtain rfl := hzone.clocks_eq
  exact (Draft.restrictAll_yields hmay (Draft.denotes_draft hzone) hconstraints).bind
    fun _ hdraft ↦ Draft.finish_yields hmay hdraft

/-- A zone contains the same as the one with its matrix closed. -/
theorem mem_iff_of_close {closed : BoundMatrix zone.clocks} (hclose : zone.matrix.close = .ok closed)
    (valuation : Valuation) : valuation ∈ zone ↔ valuation ∈ (⟨zone.clocks, closed⟩ : Zone) := by
  have hsame := (BoundMatrix.close_admits tolerant_true zone.matrix).result hclose
  rw [mem_iff_admits, mem_iff_admits, hsame]

/-- A zone whose matrix closes to the empty form contains nothing. -/
theorem not_mem_of_close_eq_empty (hclose : zone.matrix.close = .ok (.empty zone.clocks)) :
    ∀ valuation, valuation ∉ zone := by
  intro valuation hmem
  have hempty := (mem_iff_of_close hclose valuation).mp hmem
  exact BoundMatrix.not_admits_empty _ ((mem_iff_admits _ valuation).mp hempty).2

/-- Constraints that restrict nothing hold throughout the zone. -/
theorem satisfies_of_restrictAll_eq (hzone : zone.Denotes clocks valuations)
    {constraints : List Constraint} (hsame : zone.restrictAll constraints = .ok zone) :
    ∀ valuation ∈ zone, valuation.Satisfies constraints := by
  have htolerated : ∀ constraint ∈ constraints, constraint.Tolerated (fun _ ↦ True) clocks :=
    fun constraint _ ↦ constraint.tolerated_true clocks
  have hyields := restrictAll_yields tolerant_true hzone htolerated
  intro valuation hmem
  exact (((hyields.result hsame).mem_iff valuation).mp hmem).2

theorem meet_yields (hmay : Tolerant may) (hzone : zone.Denotes clocks valuations) {other : Zone}
    {others : Valuation → Prop} (hother : other.Denotes clocks others) :
    Yields may (zone.meet other) (·.Denotes clocks fun valuation ↦
      valuations valuation ∧ others valuation) := by
  obtain rfl := hzone.clocks_eq
  exact (Draft.meet_yields hmay (Draft.denotes_draft hzone) hother).bind
    fun _ hdraft ↦ Draft.finish_yields hmay hdraft

end Zone

end TimedSafety
