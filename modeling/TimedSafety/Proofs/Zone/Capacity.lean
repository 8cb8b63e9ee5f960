import TimedSafety.Proofs.Matrix.Walks
import TimedSafety.Proofs.Zone.Operators

/-!
How many constraints can be put on clocks without overflow: any number of them, as far as tightening
is concerned, since constants are limited. Closure is what can overflow. If some valuation obeys all
constraints, closure only sums along simple walks, and their length times the largest constant stays
below the largest word for any sensible number of clocks. If the constraints contradict each other
in a way that no two of them show, cells can grow by every pivot; with fifteen clocks there is still
room for that (`restrictAll_top_exact`), and with sixteen there is not (`tangle_overflows`).
-/

set_option autoImplicit false

namespace TimedSafety

/-! ### Checked constraints -/

namespace Constraint

/-- The checked constructors accept the constraint. -/
def Checked : Constraint → Prop
  | always | never => True
  | compare left none comparison bound =>
    unit left comparison bound = .ok (compare left none comparison bound)
  | compare left (some right) comparison bound =>
    difference left right comparison bound = .ok (compare left (some right) comparison bound)

theorem Checked.range {left : Clock} {right : Option Clock} {comparison : Comparison} {bound : Int}
    (hchecked : (compare left right comparison bound).Checked) :
    -maxConstant ≤ bound ∧ bound ≤ maxConstant := by
  cases right with
  | none => exact range_of_checkConstant hchecked
  | some right =>
    simp only [Checked, difference] at hchecked
    split_ifs at hchecked
    exact range_of_checkConstant hchecked

end Constraint

/-! ### Tightening -/

namespace Draft

variable {clocks : Nat} {draft : Draft clocks} {limit : Int}

theorem tighten_moderate (hdraft : draft.matrix.Moderate limit) (hfits : 2 * limit < 2 ^ 63)
    (i j : Index clocks) {bound : Bound} (hbound : bound.Limited limit) :
    Yields (fun _ ↦ False) (draft.tighten i j bound) (·.matrix.Moderate limit) :=
  (BoundMatrix.constrain_moderate hdraft hfits i j hbound).bind fun _ hmatrix ↦ hmatrix

theorem compare_moderate (hdraft : draft.matrix.Moderate limit) (hfits : 2 * limit < 2 ^ 63)
    (i j : Index clocks) (comparison : Comparison) {bound : Int}
    (hbound : -limit ≤ bound ∧ bound ≤ limit) :
    Yields (fun _ ↦ False) (draft.compare i j comparison bound) (·.matrix.Moderate limit) := by
  have hnegate : Yields (fun _ ↦ False) (Word.negate bound) (· = -bound) := by
    rw [Word.negate, if_pos]
    · rfl
    · unfold Word.Fits
      omega
  refine compare_keeps hdraft hnegate (fun current hcurrent row column value strict hvalue ↦ ?_)
    i j comparison
  have hlimited : (Bound.finite value strict).Limited limit := by
    unfold Bound.Limited
    omega
  exact tighten_moderate hcurrent hfits row column hlimited

theorem restrict_moderate (hdraft : draft.matrix.Moderate maxConstant) {constraint : Constraint}
    (hchecked : constraint.Checked) (hwithin : constraint.Within clocks) :
    Yields (fun _ ↦ False) (draft.restrict constraint) (·.matrix.Moderate maxConstant) := by
  refine restrict_keeps hdraft (Or.inl rfl) (hwithin.tolerated _) ?_
  rintro left right comparison bound rfl i j
  exact compare_moderate hdraft (by decide) i j comparison hchecked.range

/-- Checked constraints, however many, never overflow while cells are tightened. -/
theorem restrictAll_moderate (hdraft : draft.matrix.Moderate maxConstant)
    {constraints : List Constraint} (hchecked : ∀ constraint ∈ constraints, constraint.Checked)
    (hwithin : ∀ constraint ∈ constraints, constraint.Within clocks) :
    Yields (fun _ ↦ False) (draft.restrictAll constraints) (·.matrix.Moderate maxConstant) :=
  Yields.foldlM_const hdraft fun constraint hmem _ hcurrent ↦
    restrict_moderate hcurrent (hchecked constraint hmem) (hwithin constraint hmem)

end Draft

/-! ### Closing -/

namespace BoundMatrix

variable {clocks : Nat} {matrix : BoundMatrix clocks} {limit : Int}

/-- Closing a tightened matrix does not overflow if there is room for the growth of its cells, or if
it has a point and there is room for simple walks. -/
theorem Moderate.close_yields (hmatrix : matrix.Moderate limit) (hlimit : 0 ≤ limit)
    (hroom : 2 * growth clocks * limit < 2 ^ 63 ∨
      2 * ((clocks + 1 : Nat) * limit) < 2 ^ 63 ∧ ∃ point, matrix.Admits point) :
    Yields (fun _ ↦ False) matrix.close fun _ ↦ True := by
  rcases hmatrix with rfl | htightened
  · unfold close
    rw [isEmpty_empty, if_pos rfl]
    trivial
  · rcases hroom with hgrowth | ⟨hwalks, point, hadmits⟩
    · unfold close
      rw [htightened.isEmpty_eq, if_neg Bool.false_ne_true]
      exact (foldlM_relaxAll_limited htightened hlimit hgrowth).bind fun _ _ ↦ trivial
    · exact (close_shortest htightened.diagonal hadmits.noNegativeCycle htightened.limited hlimit
        hwalks).mono fun _ _ ↦ trivial

/-- For up to fifteen clocks there is room for the growth of the largest constants. -/
theorem growth_room (hclocks : clocks ≤ 15) : 2 * growth clocks * maxConstant < 2 ^ 63 := by
  calc 2 * growth clocks * maxConstant ≤ 2 * growth 15 * maxConstant := by
        have hgrowth := growth_mono hclocks
        have hpositive : 0 ≤ maxConstant := by decide
        gcongr
    _ < 2 ^ 63 := by decide

end BoundMatrix

/-- A draft can be finished if its matrix can be closed. -/
theorem Draft.finish_of_close {clocks : Nat} {may : Fault → Prop} {draft : Draft clocks}
    (hclose : Yields may draft.matrix.close fun _ ↦ True) :
    Yields may draft.finish fun _ ↦ True := by
  have hsettle : Yields may draft.settle fun _ ↦ True := by
    unfold settle
    split_ifs
    · exact hclose.bind fun _ _ ↦ trivial
    · trivial
  exact hsettle.bind fun _ _ ↦ trivial

namespace Zone

/-- Restricting all valuations by checked constraints gives a zone of just those that obey them, if
there are at most fifteen clocks, or some valuation obeys the constraints and there is room for
simple walks. -/
theorem restrictAll_top_exact {clocks : Nat}
    (hclocks : 2 * ((clocks : Int) + 1) * maxConstant < 2 ^ 63) {constraints : List Constraint}
    (hchecked : ∀ constraint ∈ constraints, constraint.Checked)
    (hwithin : ∀ constraint ∈ constraints, constraint.Within clocks)
    (hroom : clocks ≤ 15 ∨ ∃ valuation : Valuation, valuation.clocks = clocks ∧
      valuation.NonNegative ∧ valuation.Satisfies constraints) :
    ∃ zone, (top clocks).restrictAll constraints = .ok zone ∧
      zone.Denotes clocks fun valuation ↦ (valuation.clocks = clocks ∧ valuation.NonNegative) ∧
        valuation.Satisfies constraints := by
  have htolerated : ∀ constraint ∈ constraints, constraint.Tolerated (fun _ ↦ True) clocks :=
    fun constraint _ ↦ constraint.tolerated_true clocks
  have hstart : (top clocks).draft.matrix.Moderate maxConstant :=
    BoundMatrix.moderate_top (by decide)
  have hmoderate := Draft.restrictAll_moderate hstart hchecked hwithin
  have hdenotes := Draft.restrictAll_yields tolerant_true
    (Draft.denotes_draft (denotes_top clocks)) htolerated
  have hok : Yields (fun _ ↦ False) ((top clocks).restrictAll constraints) fun _ ↦ True := by
    refine (hmoderate.and hdenotes).bind fun draft hdraft ↦ Draft.finish_of_close ?_
    refine hdraft.1.close_yields (by decide) ?_
    rcases hroom with hfew | ⟨valuation, hsize, hsign, hsatisfies⟩
    · exact Or.inl (BoundMatrix.growth_room hfew)
    · have hwalks : 2 * ((clocks + 1 : Nat) * maxConstant) < 2 ^ 63 := by
        push_cast
        linarith
      have hmem := (hdraft.2.mem_iff valuation).mpr ⟨⟨hsize, hsign⟩, hsatisfies⟩
      exact Or.inr ⟨hwalks, valuation.point clocks, hmem.2⟩
  obtain ⟨zone, hzone, -⟩ := hok.exists_ok
  exact ⟨zone, hzone,
    (restrictAll_yields tolerant_true (denotes_top clocks) htolerated).result hzone⟩

/-! ### A tangle of clocks -/

/-- The first clock is far below the second, this one far below all others, and each of those far
below the first. -/
def tangle (clocks : Nat) : List Constraint :=
  .compare ⟨1, Nat.one_pos⟩ (some ⟨2, Nat.two_pos⟩) .atMost (-maxConstant) ::
    (List.range (clocks - 2)).flatMap fun i ↦
      [.compare ⟨2, Nat.two_pos⟩ (some ⟨i + 3, Nat.succ_pos _⟩) .atMost (-maxConstant),
        .compare ⟨i + 3, Nat.succ_pos _⟩ (some ⟨1, Nat.one_pos⟩) .atMost (-maxConstant)]

theorem tangle_checked {clocks : Nat} : ∀ constraint ∈ tangle clocks, constraint.Checked := by
  have hdistinct : ∀ left right : Clock, left ≠ right →
      (Constraint.compare left (some right) .atMost (-maxConstant)).Checked := by
    intro left right hne
    simp only [Constraint.Checked, Constraint.difference, if_neg hne]
    rfl
  intro constraint hmem
  simp only [tangle, List.mem_cons, List.mem_flatMap, List.not_mem_nil, or_false] at hmem
  rcases hmem with rfl | ⟨i, -, rfl | rfl⟩
  · exact hdistinct _ _ (by decide)
  · exact hdistinct _ _ (by simp)
  · exact hdistinct _ _ (by simp)

theorem tangle_within {clocks : Nat} (htwo : 2 ≤ clocks) :
    ∀ constraint ∈ tangle clocks, constraint.Within clocks := by
  intro constraint hmem
  simp only [tangle, List.mem_cons, List.mem_flatMap, List.mem_range, List.not_mem_nil,
    or_false] at hmem
  rcases hmem with rfl | ⟨i, hi, rfl | rfl⟩
  all_goals
    simp only [Constraint.Within, Constraint.clocks, List.mem_cons, List.not_mem_nil, or_false,
      forall_eq_or_imp, forall_eq]
    omega

/-- Fifteen clocks can be tangled, and a hundred can be far apart. -/
theorem restrictAll_top_exact_tangle :
    (∃ zone, (top 15).restrictAll (tangle 15) = .ok zone ∧
      zone.Denotes 15 fun valuation ↦ (valuation.clocks = 15 ∧ valuation.NonNegative) ∧
        valuation.Satisfies (tangle 15)) ∧
    ∃ zone, (top 100).restrictAll
        [.compare ⟨1, Nat.one_pos⟩ (some ⟨100, Nat.succ_pos _⟩) .atLeast maxConstant] = .ok zone ∧
      zone.Denotes 100 fun valuation ↦ (valuation.clocks = 100 ∧ valuation.NonNegative) ∧
        valuation.Satisfies
          [.compare ⟨1, Nat.one_pos⟩ (some ⟨100, Nat.succ_pos _⟩) .atLeast maxConstant] := by
  constructor
  · exact restrictAll_top_exact (by decide) tangle_checked (tangle_within (by decide))
      (Or.inl le_rfl)
  · refine restrictAll_top_exact (by decide) ?_ ?_
      (Or.inr ⟨⟨maxConstant :: List.replicate 99 0⟩, rfl, ?_, ?_⟩)
    · rw [List.forall_mem_singleton]
      rfl
    · simp [Constraint.Within, Constraint.clocks]
    · simp [Valuation.NonNegative, maxConstant]
    · simp only [Valuation.Satisfies, List.forall_mem_singleton]
      decide +kernel

/-- Sixteen clocks can not: a sum leaves the range of words while the matrix is closed. -/
theorem tangle_overflows : 2 * ((16 : Int) + 1) * maxConstant < 2 ^ 63 ∧
    (∀ constraint ∈ tangle 16, constraint.Checked) ∧
    (∀ constraint ∈ tangle 16, constraint.Within 16) ∧
    (top 16).restrictAll (tangle 16) = .error (.boundOverflow
      (.atMost (-5258930030792146944)) (.atMost (-5258927831768891392))) :=
  ⟨by decide, tangle_checked, tangle_within (by decide), by decide +kernel⟩

end Zone

end TimedSafety
