import TimedSafety.Proofs.Matrix.Shortest
import TimedSafety.Proofs.Zone.Construction

/-!
Finished zones are stable: unless such a zone is bottom, no clock is below the reference, and
closing its matrix once more finds nothing to do, except that a sum along a detour may overflow.

Stability needs resets that are not negative. A reset does not ask for that by itself, and a
negative one puts the clock below the reference at once, on every zone that is not bottom
(`transform_stable`). Going back in time afterwards even leaves a zone that is not bottom and whose
matrix closes to the empty form (`negative_reset_not_stable`).
-/

set_option autoImplicit false

namespace TimedSafety

/-! ### Stable zones -/

namespace Zone

variable {clocks : Nat} {zone made : Zone}

/-- No clock is below the reference, unless the zone is bottom, and closing the matrix again gives
it back. Only where a detour does not fit a word, closing again overflows. -/
structure Stable (zone : Zone) : Prop where
  nonNegative : zone.isBottom = false → ∀ i, zone.matrix.cell Index.reference i ≤ Bound.zero
  fixpoint : zone.matrix.DetoursFit → zone.matrix.close = .ok zone.matrix
  overflow : ¬ zone.matrix.DetoursFit →
    ∃ fault, zone.matrix.close = .error fault ∧ fault.IsOverflow

theorem stable_of_canonical (hcanonical : zone.matrix.Canonical) : zone.Stable := by
  rcases hcanonical with hempty | hclosed
  · have hclose : zone.matrix.close = .ok zone.matrix := by
      rw [BoundMatrix.close, hempty, if_pos BoundMatrix.isEmpty_empty]
    have hfit : zone.matrix.DetoursFit := by
      intro i k j
      rw [hempty, BoundMatrix.cell_empty, BoundMatrix.cell_empty]
      decide
    refine ⟨fun hbottom ↦ ?_, fun _ ↦ hclose, fun hunfit ↦ absurd hfit hunfit⟩
    rw [isBottom, hempty, BoundMatrix.isEmpty_empty] at hbottom
    contradiction
  · refine ⟨fun _ ↦ hclosed.nonnegative,
      BoundMatrix.close_eq_self hclosed.diagonal hclosed.triangle, fun hunfit ↦ ?_⟩
    have hyields := BoundMatrix.close_of_triangle hclosed.diagonal hclosed.triangle
    cases hclose : zone.matrix.close with
    | ok after => exact absurd (hyields.result hclose).2 hunfit
    | error fault => exact ⟨fault, rfl, (hyields.fault hclose).1⟩

theorem Built.stable (hzone : zone.Built clocks) : zone.Stable :=
  stable_of_canonical hzone.denotes.canonical

/-! ### Negative resets -/

/-- A reset of a closed zone sets one clock to the constant, whatever its sign. -/
theorem transform_reset_yields (hclosed : zone.matrix.Closed) (clock : Clock) (value : Int) :
    Yields (fun _ ↦ True) (zone.transform [.reset clock value]) fun next ↦
      ∃ x : Index zone.clocks, x ≠ Index.reference ∧
        next = ⟨zone.clocks, zone.matrix.assignClock x Index.reference value⟩ := by
  have hreset : Yields (fun _ ↦ True) (zone.draft.reset clock value) fun draft ↦
      ∃ x : Index zone.clocks, x ≠ Index.reference ∧
        draft = ⟨zone.matrix.assignClock x Index.reference value, false⟩ := by
    refine (Valuation.indexOf_yields fun _ ↦ trivial).bind fun x hx ↦ ?_
    refine (checkConstant_yields fun _ ↦ trivial).bind fun _ _ ↦ ?_
    have hempty : ¬ zone.draft.matrix.isEmpty = true := by
      simp [draft, hclosed.isEmpty_eq]
    simp only [Draft.onClosed, Draft.settle, draft, Bool.false_eq_true, if_false]
    change Yields _ (if zone.draft.matrix.isEmpty then _ else _) _
    rw [if_neg hempty]
    refine (BoundMatrix.reset_yields tolerant_true hclosed x value).bind ?_
    rintro after rfl
    exact ⟨x, Valuation.index_ne_reference hx, rfl⟩
  have hrun : Yields (fun _ ↦ True) (zone.draft.run [.reset clock value]) fun draft ↦
      ∃ x : Index zone.clocks, x ≠ Index.reference ∧
        draft = ⟨zone.matrix.assignClock x Index.reference value, false⟩ :=
    hreset.bind fun _ hdraft ↦ hdraft
  refine hrun.bind ?_
  rintro _ ⟨x, hx, rfl⟩
  exact ⟨x, hx, rfl⟩

/-- After a negative reset, the clock is below the reference. -/
theorem not_stable_assignClock (hclosed : zone.matrix.Closed) {x : Index zone.clocks}
    (hx : x ≠ Index.reference) {value : Int} (hvalue : value < 0) :
    ¬ Stable ⟨zone.clocks, zone.matrix.assignClock x Index.reference value⟩ := by
  intro hstable
  have hbottom :
      isBottom ⟨zone.clocks, zone.matrix.assignClock x Index.reference value⟩ = false := by
    have hdiagonal := BoundMatrix.substitute_diagonal hclosed.toGrounded
      (fun i ↦ if i = x then Index.reference else i) (fun i ↦ if i = x then value else 0)
      Index.reference
    simp [isBottom, BoundMatrix.isEmpty, BoundMatrix.assignClock, hdiagonal]
  have hcell := hstable.nonNegative hbottom x
  simp only [BoundMatrix.assignClock, BoundMatrix.cell_substitute, if_neg (Ne.symm hx), if_true,
    hclosed.diagonal, Bound.zero_sum, Bound.finite_le_finite] at hcell
  omega

/-- A construction in which no reset is negative ends in a stable zone. One more reset of a zone
that is not bottom ends in a stable zone just if it is not negative. -/
theorem transform_stable (hzone : zone.Built clocks) {steps : List ZoneStep}
    (hresets : ∀ step ∈ steps, step.KeepsNonNegative)
    (hmet : ∀ other, ZoneStep.meet other ∈ steps → other.Built clocks)
    (hmade : zone.transform steps = .ok made) :
    made.Stable ∧ ∀ clock value next, made.isBottom = false →
      made.transform [.reset clock value] = .ok next → (next.Stable ↔ 0 ≤ value) := by
  have hbuilt : made.Built clocks := .transform hzone hresets hmet hmade
  refine ⟨hbuilt.stable, fun clock value next hbottom hnext ↦ ⟨fun hstable ↦ ?_, fun hvalue ↦ ?_⟩⟩
  · have hclosed := hbuilt.denotes.canonical.closed hbottom
    obtain ⟨x, hx, rfl⟩ := (transform_reset_yields hclosed clock value).result hnext
    by_contra hnegative
    exact not_stable_assignClock hclosed hx (not_le.mp hnegative) hstable
  · have hkeeps : ∀ step ∈ [ZoneStep.reset clock value], step.KeepsNonNegative := by
      simpa [ZoneStep.KeepsNonNegative] using hvalue
    exact (Built.transform hbuilt hkeeps (by simp) hnext).stable

theorem transform_stable_circuit :
    (ZoneBase.zero.zone 2).transform ZoneStep.circuit = .ok ZoneStep.circuitZone ∧
    ZoneStep.circuitZone.Stable ∧ ∀ clock value next, ZoneStep.circuitZone.isBottom = false →
      ZoneStep.circuitZone.transform [.reset clock value] = .ok next →
        (next.Stable ↔ 0 ≤ value) :=
  ⟨ZoneStep.transform_circuit, transform_stable (.base .zero) ZoneStep.circuit_keepsNonNegative
    ZoneStep.circuit_meets_built ZoneStep.transform_circuit⟩

/-- The zone over one clock in which that clock is `-5`. -/
def sunkZone : Zone where
  clocks := 1
  matrix := ⟨#v[#v[.atMost 0, .atMost 5], #v[.atMost (-5), .atMost 0]]⟩

/-- What going back in time makes of it: the clock is at least zero and at most `-5`. -/
def plungedZone : Zone where
  clocks := 1
  matrix := ⟨#v[#v[.atMost 0, .atMost 0], #v[.atMost (-5), .atMost 0]]⟩

/-- A negative reset is accepted, and puts the clock below the reference. Going back in time then
ends in a zone that is not bottom, while closing its matrix again empties it. -/
theorem negative_reset_not_stable :
    ((top 1).transform [.reset ⟨1, Nat.one_pos⟩ (-5)] = .ok sunkZone ∧
      sunkZone.isBottom = false ∧ ¬ sunkZone.Stable) ∧
    (top 1).transform [.reset ⟨1, Nat.one_pos⟩ (-5), .down] = .ok plungedZone ∧
      plungedZone.isBottom = false ∧ plungedZone.matrix.close = .ok (.empty 1) ∧
      ¬ plungedZone.Stable := by
  have hempties : plungedZone.matrix.close = .ok (.empty 1) := by decide +kernel
  refine ⟨⟨by decide +kernel, rfl, fun hstable ↦ ?_⟩, by decide +kernel, rfl, hempties, ?_⟩
  · have hcell := hstable.nonNegative rfl (⟨1, by decide⟩ : Fin 2)
    revert hcell
    decide
  · intro hstable
    have hclose := hstable.fixpoint (by decide +kernel)
    rw [hempties] at hclose
    revert hclose
    decide +kernel

end Zone

end TimedSafety
