import TimedSafety.Proofs.Automaton.Predecessor
import TimedSafety.Proofs.Zone.Construction

/-!
Images along moves whose resets may be negative. Such an image can hold clocks below the reference,
so its matrix need not be in order. It is level all the same (`Move.post_level`), as is every zone
that operations can make (`Zone.Composed.level`). That is enough to meet it with a zone in order:
the common part is in order again, and holds what the two have in common (`Zone.meet_level`).

An image is only computed after the constants of the commands were checked (`Move.post_inRange`).
With constants in range, it can only overflow.
-/

set_option autoImplicit false

namespace TimedSafety

/-! ### Constants that were checked -/

/-- The constants of all commands of the move are in range. -/
def Move.InRange (move : Move) : Prop :=
  ∀ command ∈ move.commands, ∀ value ∈ command.constant?,
    -maxConstant ≤ value ∧ value ≤ maxConstant

/-- The faults for constants of the move that are out of range are admitted ones. -/
def Move.ConstantsTolerated (may : Fault → Prop) (move : Move) : Prop :=
  ∀ command ∈ move.commands, ∀ value ∈ command.constant?,
    ¬ (-maxConstant ≤ value ∧ value ≤ maxConstant) → may (.constantOutOfRange value command.text)

/-- Constants in range cause no such fault. -/
theorem Move.InRange.tolerated {move : Move} (hrange : move.InRange) (may : Fault → Prop) :
    move.ConstantsTolerated may := fun command hcommand value hvalue hout ↦
  absurd (hrange command hcommand value hvalue) hout

/-- A command that was executed has its constant in range, whatever it was executed on. -/
theorem Draft.execute_range {clocks : Nat} (draft : Draft clocks) (command : Command) :
    Yields (fun _ ↦ True) (draft.execute command) fun _ ↦
      ∀ value ∈ command.constant?, -maxConstant ≤ value ∧ value ≤ maxConstant := by
  have hchecked : ∀ {clock : Clock} {value : Int} {subject : String}
      (next : Index clocks → Except Fault (Draft clocks)),
      Yields (fun _ ↦ True) (do let x ← indexOf clocks clock
                                checkConstant value subject
                                next x) fun _ ↦
        ∀ found ∈ some value, -maxConstant ≤ found ∧ found ≤ maxConstant := by
    intro clock value subject next
    refine (Valuation.indexOf_yields fun _ ↦ trivial).bind fun x _ ↦ .of_forall fun _ hresult ↦ ?_
    rintro found ⟨⟩
    exact range_of_checkConstant hresult
  cases command with
  | reset clock value => exact hchecked _
  | shift clock offset => exact hchecked _
  | guard | copy | free => exact .of_forall fun _ _ ↦ nofun

theorem Move.post_inRange (move : Move) (zone : Zone) :
    Yields (fun _ ↦ True) (move.post zone) fun _ ↦ move.InRange := by
  have hexecuted : ∀ waiting : Draft zone.clocks,
      Yields (fun _ ↦ True) (waiting.executeAll move.commands) fun _ ↦ move.InRange := by
    intro waiting
    refine Yields.foldlM (fun (done : List Command) _ ↦ ∀ command ∈ done,
      ∀ value ∈ command.constant?, -maxConstant ≤ value ∧ value ≤ maxConstant) (by simp) ?_
    intro before command _ _ current hbefore
    refine (current.execute_range command).mono fun _ hrange ↦ ?_
    exact List.forall_mem_append.mpr ⟨hbefore, List.forall_mem_singleton.mpr hrange⟩
  refine (Yields.any _).bind fun delayed _ ↦ (Yields.any _).bind fun waiting _ ↦ ?_
  exact (hexecuted waiting).bind fun _ hrange ↦ .of_forall fun _ _ ↦ hrange

/-! ### Operators keep matrices level -/

namespace BoundMatrix

variable {clocks : Nat} {may : Fault → Prop} {matrix : BoundMatrix clocks}

theorem level_replaceCross (hdiagonal : ∀ i, matrix.cell i i = Bound.zero) (x : Index clocks)
    (row column : Index clocks → Bound) : (matrix.replaceCross x row column).Level :=
  Or.inr fun i ↦ by rw [cell_replaceCross, if_pos rfl, hdiagonal]

theorem level_up (hdiagonal : ∀ i, matrix.cell i i = Bound.zero) : matrix.up.Level := by
  refine Or.inr fun i ↦ ?_
  rw [cell_up, if_neg (fun hi ↦ hi.1 hi.2), hdiagonal]

theorem level_down (hdiagonal : ∀ i, matrix.cell i i = Bound.zero) : matrix.down.Level := by
  refine Or.inr fun i ↦ ?_
  rw [cell_down, if_neg (fun hi ↦ hi.2 hi.1), hdiagonal]

theorem level_copy (hdiagonal : ∀ i, matrix.cell i i = Bound.zero) (x y : Index clocks) :
    (matrix.copy x y).Level := by
  unfold copy
  split_ifs
  · exact Or.inr hdiagonal
  · exact level_replaceCross hdiagonal x _ _

/-- The row and the column of an index are computed if each of their entries is. -/
theorem crossEntries_computed {x : Index clocks}
    {entry : Index clocks → Except Fault (Bound × Bound)}
    (hentry : ∀ i, Yields may (entry i) fun _ ↦ True) :
    Yields may (crossEntries x entry) fun _ ↦ True := by
  refine (Yields.ofFnM (fun _ _ ↦ True) fun i ↦ ?_).mono fun _ _ ↦ trivial
  split_ifs
  · trivial
  · exact hentry i

theorem reset_level (hmay : Tolerant may) (hdiagonal : ∀ i, matrix.cell i i = Bound.zero)
    (x : Index clocks) (value : Int) : Yields may (matrix.reset x value) Level := by
  refine (crossEntries_computed fun i ↦ ?_).bind fun _ _ ↦ level_replaceCross hdiagonal x _ _
  refine (Bound.add_yields (hmay.sum _ _)).bind fun _ _ ↦ ?_
  refine (Word.negate_yields hmay value).bind fun _ _ ↦ ?_
  exact (Bound.add_yields (hmay.sum _ _)).bind fun _ _ ↦ trivial

theorem shift_level (hmay : Tolerant may) (hdiagonal : ∀ i, matrix.cell i i = Bound.zero)
    (x : Index clocks) (offset : Int) : Yields may (matrix.shift x offset) Level := by
  refine (crossEntries_computed fun i ↦ ?_).bind fun _ _ ↦
    constrain_level hmay (level_replaceCross hdiagonal x _ _) _ _ _
  refine (Bound.add_yields (hmay.sum _ _)).bind fun _ _ ↦ ?_
  refine (Word.negate_yields hmay offset).bind fun _ _ ↦ ?_
  exact (Bound.add_yields (hmay.sum _ _)).bind fun _ _ ↦ trivial

end BoundMatrix

/-! ### Drafts -/

namespace Draft

variable {clocks : Nat} {may : Fault → Prop} {draft : Draft clocks}

/-- The matrix of the draft is level. -/
def Level (draft : Draft clocks) : Prop := draft.matrix.Level

theorem level_empty : (⟨.empty clocks, false⟩ : Draft clocks).Level := Or.inl rfl

theorem tighten_level (hmay : Tolerant may) (hdraft : draft.Level) (i j : Index clocks)
    (bound : Bound) : Yields may (draft.tighten i j bound) Level :=
  (BoundMatrix.constrain_level hmay hdraft i j bound).bind fun _ hmatrix ↦ hmatrix

theorem restrict_level (hmay : Tolerant may) (hdraft : draft.Level) {constraint : Constraint}
    (hconstraint : constraint.Tolerated may clocks) :
    Yields may (draft.restrict constraint) Level :=
  restrict_keeps hdraft level_empty hconstraint fun _ _ comparison bound _ i j ↦
    compare_keeps hdraft (Word.negate_yields hmay bound)
      (fun _ hcurrent i j _ _ _ ↦ tighten_level hmay hcurrent i j _) i j comparison

theorem restrictAll_level (hmay : Tolerant may) (hdraft : draft.Level)
    {constraints : List Constraint}
    (hconstraints : ∀ constraint ∈ constraints, constraint.Within clocks) :
    Yields may (draft.restrictAll constraints) Level :=
  Yields.foldlM_const hdraft fun constraint hmem _ hcurrent ↦
    restrict_level hmay hcurrent ((hconstraints constraint hmem).tolerated may)

theorem settle_level (hmay : Tolerant may) (hdraft : draft.Level) :
    Yields may draft.settle Level := by
  unfold settle
  split_ifs
  · exact (BoundMatrix.close_level hmay hdraft).bind fun _ hclosed ↦ hclosed
  · exact hdraft

/-- An operator is only applied to a matrix that is not empty. -/
theorem onClosed_level (hmay : Tolerant may) (hdraft : draft.Level)
    {operator : BoundMatrix clocks → Except Fault (Draft clocks)}
    (hoperator : ∀ matrix : BoundMatrix clocks, (∀ i, matrix.cell i i = Bound.zero) →
      Yields may (operator matrix) Level) :
    Yields may (draft.onClosed operator) Level := by
  refine (settle_level hmay hdraft).bind fun settled hsettled ↦ ?_
  by_cases hempty : settled.matrix.isEmpty = true
  · rw [if_pos hempty]
    exact hsettled
  · rw [if_neg hempty]
    exact hoperator settled.matrix
      (BoundMatrix.Level.diagonal hsettled (Bool.not_eq_true _ ▸ hempty))

theorem up_level (hmay : Tolerant may) (hdraft : draft.Level) : Yields may draft.up Level :=
  onClosed_level hmay hdraft fun _ hdiagonal ↦ BoundMatrix.level_up hdiagonal

theorem down_level (hmay : Tolerant may) (hdraft : draft.Level) : Yields may draft.down Level :=
  onClosed_level hmay hdraft fun _ hdiagonal ↦ BoundMatrix.level_down hdiagonal

theorem delay_level (hmay : Tolerant may) (hdraft : draft.Level) (urgent : Bool) :
    Yields may (draft.delay urgent) Level := by
  cases urgent with
  | true => exact hdraft
  | false => exact up_level hmay hdraft

theorem execute_level (hmay : Tolerant may) (hdraft : draft.Level) {command : Command}
    (hclocks : ∀ clock ∈ command.clocks, clocks < clock.id → may (.clockOutOfRange clock clocks))
    (hconstant : ∀ value ∈ command.constant?, ¬ (-maxConstant ≤ value ∧ value ≤ maxConstant) →
      may (.constantOutOfRange value command.text)) :
    Yields may (draft.execute command) Level := by
  have hindex : ∀ clock ∈ command.clocks,
      Yields may (indexOf clocks clock) fun x ↦ x.val = clock.id := fun clock hclock ↦
    Valuation.indexOf_yields (hclocks clock hclock)
  cases command with
  | reset clock value =>
    refine (hindex clock (by simp [Command.clocks])).bind fun x _ ↦ ?_
    refine (checkConstant_yields (hconstant value rfl)).bind fun _ _ ↦ ?_
    refine onClosed_level hmay hdraft fun matrix hdiagonal ↦ ?_
    exact (BoundMatrix.reset_level hmay hdiagonal x value).bind fun _ hreset ↦ hreset
  | guard constraint => exact restrict_level hmay hdraft hclocks
  | copy clock source =>
    refine (hindex clock (by simp [Command.clocks])).bind fun x _ ↦ ?_
    refine (hindex source (by simp [Command.clocks])).bind fun y _ ↦ ?_
    exact onClosed_level hmay hdraft fun _ hdiagonal ↦ BoundMatrix.level_copy hdiagonal x y
  | shift clock offset =>
    refine (hindex clock (by simp [Command.clocks])).bind fun x _ ↦ ?_
    refine (checkConstant_yields (hconstant offset rfl)).bind fun _ _ ↦ ?_
    refine onClosed_level hmay hdraft fun matrix hdiagonal ↦ ?_
    exact (BoundMatrix.shift_level hmay hdiagonal x offset).bind fun _ hshift ↦ hshift
  | free clock =>
    refine (hindex clock (by simp [Command.clocks])).bind fun x _ ↦ ?_
    exact onClosed_level hmay hdraft fun _ hdiagonal ↦
      BoundMatrix.level_replaceCross hdiagonal x _ _

/-- Any zone may be met. -/
theorem meet_keeps_level (hdraft : draft.Level) (zone : Zone) :
    Yields (fun _ ↦ True) (draft.meet zone) Level := by
  unfold meet
  split_ifs
  · exact level_empty
  · refine Yields.foldlM_const hdraft fun pair _ current hcurrent ↦ ?_
    dsimp only
    split_ifs
    · exact hcurrent
    · exact tighten_level tolerant_true hcurrent pair.1 pair.2 _
  · trivial

/-- All operations keep a draft level. -/
theorem apply_level (hdraft : draft.Level) (step : ZoneStep) :
    Yields (fun _ ↦ True) (draft.apply step) Level := by
  have hexecute : ∀ command, Yields (fun _ ↦ True) (draft.execute command) Level := fun command ↦
    execute_level tolerant_true hdraft (fun _ _ _ ↦ trivial) fun _ _ _ ↦ trivial
  cases step with
  | restrict constraint => exact hexecute (.guard constraint)
  | meet zone => exact meet_keeps_level hdraft zone
  | up => exact up_level tolerant_true hdraft
  | down => exact down_level tolerant_true hdraft
  | free clock => exact hexecute (.free clock)
  | reset clock value => exact hexecute (.reset clock value)
  | copy clock source => exact hexecute (.copy clock source)
  | shift clock offset => exact hexecute (.shift clock offset)
  | execute command => exact hexecute command
  | settle => exact settle_level tolerant_true hdraft

/-! ### Meeting a zone in order -/

/-- A draft whose cells are tightened to those of a grounded matrix is in order. -/
theorem meetCells_level (hmay : Tolerant may) (hdraft : draft.Level)
    {matrix : BoundMatrix clocks} (hmatrix : matrix.Grounded) :
    Yields may (draft.meetCells matrix) Sound := by
  -- A cell that is tightened is at most the other one afterwards, and leaves the draft loose.
  have hfold : Yields may (draft.meetCells matrix) fun after ↦ after.Level ∧
      (after.matrix = .empty clocks ∨ ∀ pair ∈ pairs clocks,
        ¬ (pair.1 = pair.2 ∨ matrix.cell pair.1 pair.2 = .infinite) →
          after.loose = true ∧ after.matrix.cell pair.1 pair.2 ≤ matrix.cell pair.1 pair.2) := by
    refine Yields.foldlM (fun (done : List (Index clocks × Index clocks))
      (current : Draft clocks) ↦ current.Level ∧ (current.matrix = .empty clocks ∨
        ∀ pair ∈ done, ¬ (pair.1 = pair.2 ∨ matrix.cell pair.1 pair.2 = .infinite) →
          current.loose = true ∧ current.matrix.cell pair.1 pair.2 ≤ matrix.cell pair.1 pair.2))
      ⟨hdraft, Or.inr (by simp)⟩ ?_
    rintro done ⟨i, j⟩ rest - current ⟨hlevel, hdone⟩
    dsimp only
    split_ifs with hskip
    · refine ⟨hlevel, hdone.imp id fun hdone ↦ List.forall_mem_append.mpr ⟨hdone, ?_⟩⟩
      exact List.forall_mem_singleton.mpr fun hkeep ↦ absurd hskip hkeep
    · refine ((BoundMatrix.constrain_level hmay hlevel i j _).and
        (BoundMatrix.constrain_le hmay hlevel i j _)).bind ?_
      rintro after ⟨rfl | hdiagonal, hle⟩
      · exact ⟨Or.inl rfl, Or.inl rfl⟩
      refine ⟨Or.inr hdiagonal, hle.imp id ?_⟩
      rintro ⟨hle, hbound⟩
      have hloose : (!after.isEmpty) = true := by simp [BoundMatrix.isEmpty, hdiagonal]
      have hbefore := hdone.resolve_left (BoundMatrix.ne_empty_of_le hdiagonal hle)
      refine List.forall_mem_append.mpr ⟨fun pair hpair hkept ↦ ⟨hloose, ?_⟩, ?_⟩
      · exact Bound.le_trans (hle _ _) (hbefore pair hpair hkept).2
      · exact List.forall_mem_singleton.mpr fun _ ↦ ⟨hloose, hbound⟩
  refine hfold.mono ?_
  rintro after ⟨hlevel, hempty | hcells⟩
  · exact ⟨Or.inl hempty, fun _ ↦ Or.inl hempty⟩
  rcases hlevel with hempty | hdiagonal
  · exact ⟨Or.inl hempty, fun _ ↦ Or.inl hempty⟩
  have hclock : ∀ i, i ≠ Index.reference → after.loose = true ∧
      after.matrix.cell Index.reference i ≤ matrix.cell Index.reference i := by
    intro i hi
    refine hcells (Index.reference, i) (mem_pairs _ _) (not_or.mpr ⟨Ne.symm hi, fun hinfinite ↦ ?_⟩)
    have hnonnegative := hmatrix.nonnegative i
    rw [hinfinite] at hnonnegative
    exact absurd hnonnegative (by decide)
  have hgrounded : after.matrix.Grounded := by
    refine ⟨hdiagonal, fun i ↦ ?_⟩
    by_cases hi : i = Index.reference
    · rw [hi, hdiagonal]
    · exact Bound.le_trans (hclock i hi).2 (hmatrix.nonnegative i)
  refine ⟨Or.inr hgrounded, fun hfirm ↦ Or.inr ⟨hgrounded, ?_⟩⟩
  -- Only over no clocks at all does nothing have to be tightened.
  have honly : ∀ i : Index clocks, i = Index.reference := by
    intro i
    by_contra hi
    rw [(hclock i hi).1] at hfirm
    contradiction
  intro i j k
  rw [honly i, honly j, honly k, hdiagonal, Bound.zero_sum]

end Draft

namespace Zone

variable {may : Fault → Prop} {zone other : Zone} {clocks : Nat} {others : Valuation → Prop}

/-- The common part of a level zone and a zone in order is in order. -/
theorem meet_level (hmay : Tolerant may) (hclocks : zone.clocks = clocks)
    (hzone : zone.matrix.Level) (hother : other.Denotes clocks others) :
    Yields may (zone.meet other) (·.Denotes clocks fun valuation ↦
      valuation ∈ zone ∧ others valuation) := by
  subst hclocks
  have hdraft : zone.draft.Level := hzone
  have hsound : Yields may (zone.draft.meet other) Draft.Sound := by
    rcases zone.draft.meet_cases hother with ⟨hmeet, -⟩ | ⟨matrix, hmeet, hgrounded, -⟩
    · rw [hmeet]
      exact Draft.denotes_empty.toSound
    · rw [hmeet]
      exact Draft.meetCells_level hmay hdraft hgrounded
  refine (hsound.and (Draft.meet_mem hmay zone.draft hother)).bind ?_
  rintro common ⟨hcommon, hmem⟩
  refine Draft.finish_yields hmay ⟨hcommon, fun valuation ↦ ?_⟩
  rw [hmem, mem_iff_admits]
  rfl

theorem meets_level (hmay : Tolerant may) (hclocks : zone.clocks = clocks)
    (hzone : zone.matrix.Level) (hother : other.Denotes clocks others) :
    Yields may (zone.meets other) fun common ↦
      (common = true ↔ ∃ valuation ∈ zone, others valuation) := by
  refine (meet_level hmay hclocks hzone hother).bind fun common hcommon ↦ ?_
  rw [Yields.pure_iff, Bool.not_eq_true', exists_mem_iff hcommon.canonical]
  exact exists_congr hcommon.mem_iff

/-- The zones over a number of clocks that operations can make of the base zones at all. -/
inductive Composed (clocks : Nat) : Zone → Prop
  | base (base : ZoneBase) : Composed clocks (base.zone clocks)
  | transform {zone made : Zone} {steps : List ZoneStep} (hzone : Composed clocks zone)
      (hmade : zone.transform steps = .ok made) : Composed clocks made

theorem Composed.level (hzone : zone.Composed clocks) :
    zone.clocks = clocks ∧ zone.matrix.Level := by
  induction hzone with
  | base base =>
    have hbase := base.denotes clocks
    exact ⟨hbase.clocks_eq, hbase.canonical.wellFormed.level⟩
  | @transform zone made steps _ hmade ih =>
    obtain ⟨rfl, hlevel⟩ := ih
    have hstart : zone.draft.Level := hlevel
    have hmade' : Yields (fun _ ↦ True) (zone.transform steps) fun made ↦
        made.clocks = zone.clocks ∧ made.matrix.Level := by
      refine (Yields.foldlM_const hstart fun step _ _ hcurrent ↦
        Draft.apply_level hcurrent step).bind fun draft hdraft ↦ ?_
      exact (Draft.settle_level tolerant_true hdraft).bind fun _ hsettled ↦ ⟨rfl, hsettled⟩
    exact hmade'.result hmade

end Zone

/-! ### Moves -/

namespace Move

variable {may : Fault → Prop} {move : Move} {zone : Zone}

/-- The image after a move is level. With constants in range, it can only overflow. -/
theorem post_level (hmay : Tolerant may) (hzone : zone.matrix.Level)
    (hwithin : move.Within zone.clocks) (hconstants : move.ConstantsTolerated may) :
    Yields may (move.post zone) fun image ↦ image.clocks = zone.clocks ∧ image.matrix.Level := by
  have hdraft : zone.draft.Level := hzone
  refine (Draft.delay_level hmay hdraft move.sourceUrgent).bind fun delayed hdelayed ↦ ?_
  refine (Draft.restrictAll_level hmay hdelayed hwithin.source).bind fun waiting hwaiting ↦ ?_
  have hexecute : Yields may (waiting.executeAll move.commands) Draft.Level :=
    Yields.foldlM_const hwaiting fun command hcommand _ hcurrent ↦ Draft.execute_level hmay hcurrent
      (fun clock hclock hlt ↦ absurd (hwithin.commands command hcommand clock hclock)
        (not_le.mpr hlt)) (hconstants command hcommand)
  refine hexecute.bind fun executed hexecuted ↦ ?_
  refine (Draft.restrictAll_level hmay hexecuted hwithin.target).bind fun arrived harrived ↦ ?_
  exact (Draft.settle_level hmay harrived).bind fun settled hsettled ↦ ⟨rfl, hsettled⟩

end Move

end TimedSafety
