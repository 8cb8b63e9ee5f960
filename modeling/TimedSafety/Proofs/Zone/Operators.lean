import TimedSafety.Automaton.Image
import TimedSafety.Proofs.Matrix.Substitution
import TimedSafety.Proofs.Zone.Denotation

/-!
The operators on closed matrices as images of the denoted set: letting time pass, going back in
time, and executing commands. Each is exact, so a draft after an operator contains a valuation just
if the operator's relation leads there from a valuation before it. Sequences of commands and whole
moves follow.
-/

set_option autoImplicit false

namespace TimedSafety

/-! ### Writing and moving valuations -/

namespace Valuation

variable {clocks : Nat} {before after : Valuation}

@[simp] theorem later_later (valuation : Valuation) (first second : Rat) :
    (valuation.later first).later second = valuation.later (first + second) := by
  simp [later]

@[simp] theorem later_zero (valuation : Valuation) : valuation.later 0 = valuation := by
  simp [later]

theorem NonNegative.later {valuation : Valuation} (hvaluation : valuation.NonNegative)
    {duration : Rat} (hduration : 0 ≤ duration) : (valuation.later duration).NonNegative := by
  intro value hvalue
  obtain ⟨former, hformer, rfl⟩ := List.mem_map.mp hvalue
  exact add_nonneg (hvaluation former hformer) hduration

/-- Being a valuation moved forwards is the same as leading back to it. -/
theorem eq_later_iff (before after : Valuation) (duration : Rat) :
    after = before.later duration ↔ before = after.later (-duration) := by
  constructor
  · rintro rfl
    simp
  · rintro rfl
    simp

theorem eq_write_iff (hbefore : before.clocks = clocks) (hafter : after.clocks = clocks)
    {clock : Clock} {i : Index clocks} (hi : i.val = clock.id) (value : Rat) :
    after = before.write clock value ↔
      after.point clocks = Function.update (before.point clocks) i value := by
  rw [← point_write hbefore hi]
  constructor
  · rintro rfl
    rfl
  · exact eq_of_point_eq hafter ((clocks_write _ _ _).trans hbefore)

/-- A written clock can be written back. -/
theorem eq_write_point (hafter : after.clocks = clocks) {clock : Clock} {i : Index clocks}
    (hi : i.val = clock.id) (former : Rat) :
    after = (after.write clock former).write clock (after.point clocks i) := by
  rw [eq_write_iff ((clocks_write _ _ _).trans hafter) hafter hi, point_write hafter hi]
  simp

end Valuation

/-! ### Commands on valuations -/

namespace Command

variable {clocks : Nat} {before after : Valuation} {clock source : Clock} {i j : Index clocks}

theorem leads_guard_iff {constraint : Constraint} :
    (guard constraint).Leads before after ↔
      constraint.holds before = .ok true ∧ after = before := by
  simp only [Leads, apply]
  cases constraint.holds before with
  | error fault => simp [bind, Except.bind]
  | ok enabled => cases enabled <;> simp [bind, Except.bind, pure, Except.pure, eq_comm]

theorem leads_free_iff (hbefore : before.clocks = clocks) (hi : i.val = clock.id) :
    (free clock).Leads before after ↔
      ∃ value : Rat, 0 ≤ value ∧ after = before.write clock value := by
  have hclock : clock.id ≤ before.clocks := by have := i.isLt; omega
  unfold Leads
  simp only [Valuation.set_eq_ok_iff hclock]
  exact exists_congr fun value ↦ ⟨fun h ↦ h.2, fun h ↦ ⟨h.1, h⟩⟩

/-- A clock is set to a value: possible if that is not negative. -/
theorem set_some_iff (hbefore : before.clocks = clocks) (hi : i.val = clock.id) (value : Rat) :
    (do let written ← before.set clock value
        return some written : Except Fault (Option Valuation)) = .ok (some after) ↔
      0 ≤ value ∧ after = before.write clock value := by
  have hclock : clock.id ≤ before.clocks := by have := i.isLt; omega
  rw [← Valuation.set_eq_ok_iff hclock]
  cases before.set clock value <;> simp [bind, Except.bind, pure, Except.pure]

theorem leads_reset_iff (hbefore : before.clocks = clocks) (hi : i.val = clock.id) (value : Int) :
    (reset clock value).Leads before after ↔
      0 ≤ (value : Rat) ∧ after = before.write clock value :=
  set_some_iff hbefore hi value

theorem leads_copy_iff (hbefore : before.clocks = clocks) (hi : i.val = clock.id)
    (hj : j.val = source.id) :
    (copy clock source).Leads before after ↔
      0 ≤ before.point clocks j ∧ after = before.write clock (before.point clocks j) := by
  simp only [Leads, apply]
  rw [(Valuation.get_eq_ok_iff hbefore hj _).mpr rfl]
  exact set_some_iff hbefore hi _

theorem leads_shift_iff (hbefore : before.clocks = clocks) (hi : i.val = clock.id)
    (offset : Int) :
    (shift clock offset).Leads before after ↔ 0 ≤ before.point clocks i + offset ∧
      after = before.write clock (before.point clocks i + offset) := by
  simp only [Leads, apply]
  rw [(Valuation.get_eq_ok_iff hbefore hi _).mpr rfl]
  by_cases hnegative : before.point clocks i + offset < 0
  · simp [bind, Except.bind, pure, Except.pure, hnegative, not_le.mpr hnegative]
  · simp only [bind, Except.bind, if_neg hnegative]
    exact set_some_iff hbefore hi _

/-! ### What a command may be refused for -/

/-- A reset is to a value that is not negative. -/
def KeepsNonNegative : Command → Prop
  | reset _ value => 0 ≤ value
  | _ => True

instance : DecidablePred KeepsNonNegative
  | reset _ value => inferInstanceAs (Decidable (0 ≤ value))
  | guard _ | copy _ _ | shift _ _ | free _ => .isTrue trivial

/-- The constant of a command is checked when the command is executed. -/
def constant? : Command → Option Int
  | reset _ value => some value
  | shift _ offset => some offset
  | _ => none

/-- The faults for a clock or a constant out of range are admitted, where they can arise. -/
structure Tolerated (may : Fault → Prop) (clocks : Nat) (command : Command) : Prop where
  clock : ∀ clock ∈ command.clocks, clocks < clock.id → may (.clockOutOfRange clock clocks)
  constant : ∀ value ∈ command.constant?, ¬ (-maxConstant ≤ value ∧ value ≤ maxConstant) →
    may (.constantOutOfRange value command.text)
  nonNegative : command.KeepsNonNegative

end Command

theorem checkConstant_yields {may : Fault → Prop} {value : Int} {subject : String}
    (hvalue : ¬ (-maxConstant ≤ value ∧ value ≤ maxConstant) →
      may (.constantOutOfRange value subject)) :
    Yields may (checkConstant value subject) fun _ ↦ True := by
  unfold checkConstant
  split_ifs with hrange
  · trivial
  · exact hvalue hrange

theorem Constraint.unit_tolerated {may : Fault → Prop} {clock : Clock} {comparison : Comparison}
    {bound : Int} (hbound : ¬ (-maxConstant ≤ bound ∧ bound ≤ maxConstant) →
      ∀ subject, may (.constantOutOfRange bound subject)) :
    Yields may (unit clock comparison bound) (· = .compare clock none comparison bound) :=
  (checkConstant_yields fun hrange ↦ hbound hrange _).bind fun _ _ ↦ rfl

theorem Constraint.unit_yields {may : Fault → Prop} {clock : Clock} {comparison : Comparison}
    {bound : Int} (hbound : -maxConstant ≤ bound ∧ bound ≤ maxConstant) :
    Yields may (unit clock comparison bound) (· = .compare clock none comparison bound) :=
  unit_tolerated fun hrange ↦ absurd hbound hrange

/-- A computation that checks a constant first and has a result has found it in range. -/
theorem range_of_checkConstant {α : Type} {value : Int} {subject : String}
    {next : Unit → Except Fault α} {result : α}
    (hchecked : (checkConstant value subject >>= next) = .ok result) :
    -maxConstant ≤ value ∧ value ≤ maxConstant := by
  unfold checkConstant at hchecked
  split_ifs at hchecked with hrange
  · exact hrange
  · simp [bind, Except.bind] at hchecked

/-! ### Checked constants -/

/-- The checked constructors accept the constant of the command. -/
def Command.Checked : Command → Prop
  | reset clock value => resetTo clock value = .ok (reset clock value)
  | shift clock offset => shiftBy clock offset = .ok (shift clock offset)
  | guard _ | copy _ _ | free _ => True

instance : DecidablePred Command.Checked
  | .reset clock value =>
    inferInstanceAs (Decidable (Command.resetTo clock value = .ok (.reset clock value)))
  | .shift clock offset =>
    inferInstanceAs (Decidable (Command.shiftBy clock offset = .ok (.shift clock offset)))
  | .guard _ | .copy _ _ | .free _ => .isTrue trivial

theorem Command.Checked.keepsNonNegative {command : Command} (hchecked : command.Checked) :
    command.KeepsNonNegative := by
  cases command with
  | reset clock value =>
    simp only [Checked, resetTo] at hchecked
    split_ifs at hchecked with hnegative
    exact not_lt.mp hnegative
  | _ => trivial

theorem Command.Checked.range {command : Command} (hchecked : command.Checked) {value : Int}
    (hvalue : value ∈ command.constant?) : -maxConstant ≤ value ∧ value ≤ maxConstant := by
  cases command with
  | reset clock constant =>
    obtain rfl : constant = value := Option.some.inj hvalue
    simp only [Checked, resetTo] at hchecked
    split_ifs at hchecked
    exact range_of_checkConstant hchecked
  | shift clock offset =>
    obtain rfl : offset = value := Option.some.inj hvalue
    exact range_of_checkConstant hchecked
  | _ => contradiction

/-! ### Operators on drafts -/

namespace Draft

variable {clocks : Nat} {may : Fault → Prop} {draft : Draft clocks}
  {valuations : Valuation → Prop}

/-- Carrying an operator over to a closed matrix with the same valuations. An empty draft has an
empty image, so only a matrix with points matters. -/
theorem onClosed_yields (hmay : Tolerant may) (hdraft : draft.Denotes valuations)
    {relation : Valuation → Valuation → Prop}
    {operator : BoundMatrix clocks → Except Fault (Draft clocks)}
    (hoperator : ∀ matrix : BoundMatrix clocks, matrix.Closed →
      (∀ valuation, valuations valuation ↔
        valuation.clocks = clocks ∧ matrix.Admits (valuation.point clocks)) →
      Yields may (operator matrix) (·.Denotes fun after ↦
        ∃ before, valuations before ∧ relation before after)) :
    Yields may (draft.onClosed operator) (·.Denotes fun after ↦
      ∃ before, valuations before ∧ relation before after) := by
  unfold onClosed
  refine (settle_yields hmay hdraft).bind ?_
  rintro settled ⟨hsettled, hloose⟩
  by_cases hempty : settled.matrix.isEmpty = true
  · rw [if_pos hempty]
    have hnone : ∀ valuation, ¬ valuations valuation := by
      intro valuation hvaluation
      have hadmits := ((hsettled.mem_iff valuation).mpr hvaluation).2
      rw [hadmits.isEmpty_eq] at hempty
      contradiction
    refine hsettled.congr fun valuation ↦ ?_
    simp [hnone]
  · rw [if_neg hempty]
    refine hoperator settled.matrix ?_ fun valuation ↦ (hsettled.mem_iff valuation).symm
    exact (hsettled.canonical hloose).closed (Bool.not_eq_true _ ▸ hempty)

/-- A closed matrix denotes its points. -/
theorem denotes_closed {matrix : BoundMatrix clocks} (hclosed : matrix.Closed)
    (hpoints : ∀ valuation, valuation.clocks = clocks ∧ matrix.Admits (valuation.point clocks) ↔
      valuations valuation) : (⟨matrix, false⟩ : Draft clocks).Denotes valuations :=
  ⟨⟨Or.inr hclosed.toGrounded, fun _ ↦ Or.inr hclosed⟩, hpoints⟩

theorem up_yields (hmay : Tolerant may) (hdraft : draft.Denotes valuations) :
    Yields may draft.up (·.Denotes fun after ↦ ∃ before, valuations before ∧
      ∃ duration, 0 ≤ duration ∧ after = before.later duration) := by
  refine onClosed_yields hmay hdraft fun matrix hclosed hvaluations ↦ ?_
  refine denotes_closed hclosed.up fun after ↦ ?_
  rw [BoundMatrix.up_admits_iff hclosed]
  constructor
  · rintro ⟨hclocks, duration, hduration, hadmits⟩
    refine ⟨after.later (-duration), (hvaluations _).mpr ⟨?_, ?_⟩, duration, hduration, ?_⟩
    · rw [Valuation.clocks_later, hclocks]
    · rwa [Valuation.point_later hclocks]
    · rw [Valuation.eq_later_iff]
  · rintro ⟨before, hbefore, duration, hduration, hafter⟩
    obtain ⟨hclocks, hadmits⟩ := (hvaluations before).mp hbefore
    have hsize : after.clocks = clocks := by rw [hafter, Valuation.clocks_later, hclocks]
    rw [Valuation.eq_later_iff] at hafter
    refine ⟨hsize, duration, hduration, ?_⟩
    rwa [← Valuation.point_later hsize, ← hafter]

theorem down_yields (hmay : Tolerant may) (hdraft : draft.Denotes valuations) :
    Yields may draft.down (·.Denotes fun after ↦ ∃ before, valuations before ∧
      after.NonNegative ∧ ∃ duration, 0 ≤ duration ∧ before = after.later duration) := by
  refine onClosed_yields hmay hdraft fun matrix hclosed hvaluations ↦ ?_
  refine denotes_closed hclosed.down fun after ↦ ?_
  rw [BoundMatrix.down_admits_iff hclosed]
  constructor
  · rintro ⟨hclocks, hnonnegative, duration, hduration, hadmits⟩
    refine ⟨after.later duration, (hvaluations _).mpr ⟨?_, ?_⟩, ?_, duration, hduration, rfl⟩
    · rw [Valuation.clocks_later, hclocks]
    · rwa [Valuation.point_later hclocks]
    · exact (Valuation.nonNegative_iff hclocks).mpr hnonnegative
  · rintro ⟨before, hbefore, hnonnegative, duration, hduration, rfl⟩
    obtain ⟨hsize, hadmits⟩ := (hvaluations _).mp hbefore
    have hclocks : after.clocks = clocks := by rwa [Valuation.clocks_later] at hsize
    refine ⟨hclocks, (Valuation.nonNegative_iff hclocks).mp hnonnegative, duration, hduration, ?_⟩
    rwa [← Valuation.point_later hclocks]

/-! ### Commands -/

theorem free_yields (hmay : Tolerant may) (hdraft : draft.Denotes valuations) {clock : Clock}
    (hclock : clocks < clock.id → may (.clockOutOfRange clock clocks)) :
    Yields may (draft.free clock) (·.Denotes fun after ↦
      ∃ before, valuations before ∧ (Command.free clock).Leads before after) := by
  unfold free
  refine (Valuation.indexOf_yields hclock).bind fun x hx ↦ ?_
  have hreference := Valuation.index_ne_reference hx
  refine onClosed_yields hmay hdraft fun matrix hclosed hvaluations ↦ ?_
  refine denotes_closed (hclosed.free hreference) fun after ↦ ?_
  rw [BoundMatrix.free_admits_iff hclosed hreference, Valuation.point_reference]
  constructor
  · rintro ⟨hafter, hvalue, former, hadmits⟩
    have hsize : (after.write clock former).clocks = clocks := by
      rw [Valuation.clocks_write, hafter]
    refine ⟨after.write clock former, (hvaluations _).mpr ⟨hsize, ?_⟩, ?_⟩
    · rwa [Valuation.point_write hafter hx]
    · rw [Command.leads_free_iff hsize hx]
      exact ⟨_, hvalue, Valuation.eq_write_point hafter hx former⟩
  · rintro ⟨before, hbefore, hleads⟩
    obtain ⟨hsize, hadmits⟩ := (hvaluations before).mp hbefore
    obtain ⟨value, hvalue, rfl⟩ := (Command.leads_free_iff hsize hx).mp hleads
    rw [Valuation.point_write hsize hx]
    refine ⟨(Valuation.clocks_write _ _ _).trans hsize, by simpa using hvalue,
      before.point clocks x, ?_⟩
    simpa using hadmits

/-- A clock takes the value of another index plus a constant: what a reset and a copy do. -/
theorem assignClock_denotes {matrix : BoundMatrix clocks} (hclosed : matrix.Closed)
    (hvaluations : ∀ valuation, valuations valuation ↔
      valuation.clocks = clocks ∧ matrix.Admits (valuation.point clocks))
    {clock : Clock} {x y : Index clocks} (hx : x.val = clock.id) (hxy : x ≠ y) {value : Int}
    (hvalue : 0 ≤ value) :
    (⟨matrix.assignClock x y value, false⟩ : Draft clocks).Denotes fun after ↦
      ∃ before, valuations before ∧
        after = before.write clock (before.point clocks y + value) := by
  have hreference := Valuation.index_ne_reference hx
  refine denotes_closed (hclosed.assignClock hreference hvalue) fun after ↦ ?_
  rw [BoundMatrix.assignClock_admits_iff hclosed hreference hxy]
  constructor
  · rintro ⟨hafter, hassigned, former, hadmits⟩
    refine ⟨after.write clock former, (hvaluations _).mpr ⟨?_, ?_⟩, ?_⟩
    · rw [Valuation.clocks_write, hafter]
    · rwa [Valuation.point_write hafter hx]
    · rw [Valuation.point_write hafter hx, Function.update_of_ne (Ne.symm hxy), ← hassigned]
      exact Valuation.eq_write_point hafter hx former
  · rintro ⟨before, hbefore, rfl⟩
    obtain ⟨hsize, hadmits⟩ := (hvaluations before).mp hbefore
    rw [Valuation.point_write hsize hx]
    refine ⟨(Valuation.clocks_write _ _ _).trans hsize, ?_, before.point clocks x, ?_⟩
    · rw [Function.update_self, Function.update_of_ne (Ne.symm hxy)]
    · simpa using hadmits

theorem reset_yields (hmay : Tolerant may) (hdraft : draft.Denotes valuations) {clock : Clock}
    {value : Int} (hcommand : (Command.reset clock value).Tolerated may clocks) :
    Yields may (draft.reset clock value) (·.Denotes fun after ↦
      ∃ before, valuations before ∧ (Command.reset clock value).Leads before after) := by
  have hvalue : 0 ≤ value := hcommand.nonNegative
  unfold reset
  refine (Valuation.indexOf_yields (hcommand.clock clock (by simp [Command.clocks]))).bind
    fun x hx ↦ ?_
  refine (checkConstant_yields (hcommand.constant value rfl)).bind fun _ _ ↦ ?_
  refine onClosed_yields hmay hdraft fun matrix hclosed hvaluations ↦ ?_
  refine (BoundMatrix.reset_yields hmay hclosed x value).bind ?_
  rintro matrix' rfl
  refine (assignClock_denotes hclosed hvaluations hx (Valuation.index_ne_reference hx)
    hvalue).congr fun after ↦ exists_congr fun before ↦ and_congr_right fun hbefore ↦ ?_
  rw [Command.leads_reset_iff ((hvaluations before).mp hbefore).1 hx, Valuation.point_reference,
    zero_add]
  exact (and_iff_right (Int.cast_nonneg hvalue)).symm

theorem copy_yields (hmay : Tolerant may) (hdraft : draft.Denotes valuations)
    {clock source : Clock} (hcommand : (Command.copy clock source).Tolerated may clocks) :
    Yields may (draft.copy clock source) (·.Denotes fun after ↦
      ∃ before, valuations before ∧ (Command.copy clock source).Leads before after) := by
  unfold copy
  refine (Valuation.indexOf_yields (hcommand.clock clock (by simp [Command.clocks]))).bind
    fun x hx ↦ ?_
  refine (Valuation.indexOf_yields (hcommand.clock source (by simp [Command.clocks]))).bind
    fun y hy ↦ ?_
  refine onClosed_yields hmay hdraft fun matrix hclosed hvaluations ↦ ?_
  -- The value that is copied is never negative, so a copy leads on from every valuation.
  have hleads : ∀ after before, valuations before →
      ((Command.copy clock source).Leads before after ↔
        after = before.write clock (before.point clocks y)) := by
    intro after before hbefore
    obtain ⟨hsize, hadmits⟩ := (hvaluations before).mp hbefore
    rw [Command.leads_copy_iff hsize hx hy]
    exact and_iff_right (hclosed.reference_le hadmits y)
  by_cases hxy : x = y
  · subst hxy
    rw [BoundMatrix.copy, if_pos rfl]
    refine denotes_closed hclosed fun after ↦ (hvaluations after).symm.trans ?_
    have hwrite : ∀ before, valuations before →
        before.write clock (before.point clocks x) = before := by
      intro before hbefore
      have hsize := ((hvaluations before).mp hbefore).1
      refine ((Valuation.eq_write_iff hsize hsize hx _).mpr ?_).symm
      exact (Function.update_eq_self x _).symm
    constructor
    · intro hafter
      exact ⟨after, hafter, (hleads after after hafter).mpr (hwrite after hafter).symm⟩
    · rintro ⟨before, hbefore, hstep⟩
      rw [(hleads after before hbefore).mp hstep, hwrite before hbefore]
      exact hbefore
  · rw [BoundMatrix.copy_eq hclosed hxy]
    refine (assignClock_denotes hclosed hvaluations hx hxy le_rfl).congr
      fun after ↦ exists_congr fun before ↦ and_congr_right fun hbefore ↦ ?_
    rw [hleads after before hbefore, Int.cast_zero, add_zero]

theorem shift_yields (hmay : Tolerant may) (hdraft : draft.Denotes valuations) {clock : Clock}
    {offset : Int} (hcommand : (Command.shift clock offset).Tolerated may clocks) :
    Yields may (draft.shift clock offset) (·.Denotes fun after ↦
      ∃ before, valuations before ∧ (Command.shift clock offset).Leads before after) := by
  unfold shift
  refine (Valuation.indexOf_yields (hcommand.clock clock (by simp [Command.clocks]))).bind
    fun x hx ↦ ?_
  refine (checkConstant_yields (hcommand.constant offset rfl)).bind fun _ _ ↦ ?_
  have hreference := Valuation.index_ne_reference hx
  refine onClosed_yields hmay hdraft fun matrix hclosed hvaluations ↦ ?_
  refine (BoundMatrix.shift_yields hmay hclosed hreference offset).bind ?_
  rintro shifted ⟨hwellFormed, hadmitsIff⟩
  refine ⟨⟨hwellFormed, fun hloose ↦ Or.inl (hwellFormed.isEmpty_iff.mp (by simpa using hloose))⟩,
    fun after ↦ ?_⟩
  rw [mem_iff_admits, hadmitsIff, Valuation.point_reference]
  constructor
  · rintro ⟨hafter, hvalue, hadmits⟩
    have hsize : (after.write clock (after.point clocks x - offset)).clocks = clocks := by
      rw [Valuation.clocks_write, hafter]
    refine ⟨after.write clock (after.point clocks x - offset), (hvaluations _).mpr ⟨hsize, ?_⟩, ?_⟩
    · rwa [Valuation.point_write hafter hx]
    · rw [Command.leads_shift_iff hsize hx, Valuation.point_write hafter hx, Function.update_self,
        sub_add_cancel]
      exact ⟨hvalue, Valuation.eq_write_point hafter hx _⟩
  · rintro ⟨before, hbefore, hleads⟩
    obtain ⟨hsize, hadmits⟩ := (hvaluations before).mp hbefore
    obtain ⟨hvalue, rfl⟩ := (Command.leads_shift_iff hsize hx offset).mp hleads
    rw [Valuation.point_write hsize hx]
    refine ⟨(Valuation.clocks_write _ _ _).trans hsize, by simpa using hvalue, ?_⟩
    simpa using hadmits

/-- A draft after a command contains just what the command leads to. -/
theorem execute_yields (hmay : Tolerant may) (hdraft : draft.Denotes valuations)
    {command : Command} (hcommand : command.Tolerated may clocks) :
    Yields may (draft.execute command) (·.Denotes fun after ↦
      ∃ before, valuations before ∧ command.Leads before after) := by
  cases command with
  | reset clock value => exact reset_yields hmay hdraft hcommand
  | guard constraint =>
    refine (restrict_yields hmay hdraft hcommand.clock).mono fun restricted hrestricted ↦
      hrestricted.congr fun after ↦ ?_
    constructor
    · rintro ⟨hafter, hholds⟩
      exact ⟨after, hafter, Command.leads_guard_iff.mpr ⟨hholds, rfl⟩⟩
    · rintro ⟨before, hbefore, hleads⟩
      obtain ⟨hholds, rfl⟩ := Command.leads_guard_iff.mp hleads
      exact ⟨hbefore, hholds⟩
  | copy clock source => exact copy_yields hmay hdraft hcommand
  | shift clock offset => exact shift_yields hmay hdraft hcommand
  | free clock => exact free_yields hmay hdraft (hcommand.clock clock (by simp [Command.clocks]))

end Draft

/-! ### Sequences of commands -/

namespace Command

@[simp] theorem leadAll_nil_iff {before after : Valuation} :
    LeadAll [] before after ↔ after = before := by
  constructor
  · rintro ⟨⟩
    rfl
  · rintro rfl
    exact .done after

theorem leadAll_cons_iff {command : Command} {rest : List Command} {before after : Valuation} :
    LeadAll (command :: rest) before after ↔
      ∃ between, command.Leads before between ∧ LeadAll rest between after := by
  constructor
  · rintro ⟨⟩
    exact ⟨_, ‹_›, ‹_›⟩
  · rintro ⟨between, hfirst, hrest⟩
    exact .next hfirst hrest

theorem leadAll_append_singleton_iff {commands : List Command} {command : Command}
    {before after : Valuation} : LeadAll (commands ++ [command]) before after ↔
      ∃ between, LeadAll commands before between ∧ command.Leads between after := by
  constructor
  · intro hleads
    induction commands generalizing before with
    | nil =>
      cases hleads with
      | next hfirst hrest =>
        obtain rfl := leadAll_nil_iff.mp hrest
        exact ⟨before, .done before, hfirst⟩
    | cons head rest ih =>
      cases hleads with
      | next hfirst hrest =>
        obtain ⟨between, hbetween, hlast⟩ := ih hrest
        exact ⟨between, .next hfirst hbetween, hlast⟩
  · rintro ⟨between, hbetween, hlast⟩
    induction hbetween with
    | done valuation => exact .next hlast (.done after)
    | next hfirst _ ih => exact .next hfirst (ih hlast)

end Command

namespace Draft

variable {clocks : Nat} {may : Fault → Prop} {draft : Draft clocks}
  {valuations : Valuation → Prop}

theorem executeAll_yields (hmay : Tolerant may) (hdraft : draft.Denotes valuations)
    {commands : List Command} (hcommands : ∀ command ∈ commands, command.Tolerated may clocks) :
    Yields may (draft.executeAll commands) (·.Denotes fun after ↦
      ∃ before, valuations before ∧ Command.LeadAll commands before after) := by
  refine Yields.foldlM (fun done (current : Draft clocks) ↦ current.Denotes fun after ↦
    ∃ before, valuations before ∧ Command.LeadAll done before after)
    (hdraft.congr fun valuation ↦ by simp) ?_
  intro done next rest helements current hcurrent
  refine (execute_yields hmay hcurrent (hcommands next (by simp [helements]))).mono
    fun executed hexecuted ↦ hexecuted.congr fun after ↦ ?_
  simp only [Command.leadAll_append_singleton_iff]
  constructor
  · rintro ⟨between, ⟨before, hbefore, hleads⟩, hlast⟩
    exact ⟨before, hbefore, between, hleads, hlast⟩
  · rintro ⟨before, hbefore, between, hleads, hlast⟩
    exact ⟨between, ⟨before, hbefore, hleads⟩, hlast⟩

/-! ### Waiting -/

theorem delay_yields (hmay : Tolerant may) (hdraft : draft.Denotes valuations) (urgent : Bool) :
    Yields may (draft.delay urgent) (·.Denotes fun after ↦ ∃ before, valuations before ∧
      ∃ duration, 0 ≤ duration ∧ (urgent = true → duration = 0) ∧
        after = before.later duration) := by
  unfold delay
  cases urgent with
  | true => exact hdraft.congr fun after ↦ by simp
  | false => exact (up_yields hmay hdraft).mono fun _ hup ↦ hup.congr fun after ↦ by simp

/-- Going back in time, except at an urgent location. A draft holds no negative valuations, so
asking the same of what it goes back to changes nothing where no time passes. -/
theorem undelay_yields (hmay : Tolerant may) (hdraft : draft.Denotes valuations)
    (hvaluations : ∀ valuation, valuations valuation → valuation.NonNegative) (urgent : Bool) :
    Yields may (draft.undelay urgent) (·.Denotes fun after ↦ after.NonNegative ∧
      ∃ duration, 0 ≤ duration ∧ (urgent = true → duration = 0) ∧
        valuations (after.later duration)) := by
  unfold undelay
  cases urgent with
  | true =>
    refine hdraft.congr fun after ↦ ?_
    simpa using hvaluations after
  | false =>
    refine (down_yields hmay hdraft).mono fun _ hdown ↦ hdown.congr fun after ↦ ?_
    constructor
    · rintro ⟨before, hbefore, hnonnegative, duration, hduration, rfl⟩
      exact ⟨hnonnegative, duration, hduration, by simp, hbefore⟩
    · rintro ⟨hnonnegative, duration, hduration, -, hbefore⟩
      exact ⟨_, hbefore, hnonnegative, duration, hduration, rfl⟩

/-- Waiting within invariants, as an image. -/
theorem wait_yields (hmay : Tolerant may) (hdraft : draft.Denotes valuations) (urgent : Bool)
    {invariants : List Constraint}
    (hinvariants : ∀ constraint ∈ invariants, constraint.Tolerated may clocks) :
    Yields may (do let delayed ← draft.delay urgent
                   delayed.restrictAll invariants) (·.Denotes fun after ↦
      ∃ before, valuations before ∧ before.Waits after urgent invariants) := by
  refine (delay_yields hmay hdraft urgent).bind fun delayed hdelayed ↦ ?_
  refine (restrictAll_yields hmay hdelayed hinvariants).mono
    fun waiting hwaiting ↦ hwaiting.congr fun after ↦ ?_
  simp only [Valuation.Waits]
  constructor
  · rintro ⟨⟨before, hbefore, duration, hduration, hurgent, hlater⟩, hsatisfies⟩
    exact ⟨before, hbefore, duration, hduration, hurgent, hlater, hsatisfies⟩
  · rintro ⟨before, hbefore, duration, hduration, hurgent, hlater, hsatisfies⟩
    exact ⟨⟨before, hbefore, duration, hduration, hurgent, hlater⟩, hsatisfies⟩

theorem Sound.denotes (hdraft : draft.Sound) : draft.Denotes (· ∈ draft) :=
  ⟨hdraft, fun _ ↦ Iff.rfl⟩

end Draft

theorem Zone.elapse_yields {may : Fault → Prop} (hmay : Tolerant may) {zone : Zone} {clocks : Nat}
    {valuations : Valuation → Prop} (hzone : zone.Denotes clocks valuations) (urgent : Bool)
    {invariants : List Constraint}
    (hinvariants : ∀ constraint ∈ invariants, constraint.Tolerated may clocks) :
    Yields may (zone.elapse urgent invariants) (·.Denotes clocks fun after ↦
      ∃ before, valuations before ∧ before.Waits after urgent invariants) := by
  obtain rfl := hzone.clocks_eq
  have hwait := Draft.wait_yields hmay (Draft.denotes_draft hzone) urgent hinvariants
  rw [Zone.elapse, ← bind_assoc]
  exact hwait.bind fun _ hwaiting ↦ Draft.finish_yields hmay hwaiting

/-! ### Moves -/

namespace Move

/-- The faults that a move can cause by the clocks and constants it names are admitted. -/
structure Tolerated (may : Fault → Prop) (clocks : Nat) (move : Move) : Prop where
  source : ∀ constraint ∈ move.sourceInvariants, constraint.Tolerated may clocks
  commands : ∀ command ∈ move.commands, command.Tolerated may clocks
  target : ∀ constraint ∈ move.targetInvariants, constraint.Tolerated may clocks

variable {may : Fault → Prop} {move : Move} {zone : Zone} {clocks : Nat}
  {valuations : Valuation → Prop}

/-- The image after a move contains just what the move leads to. -/
theorem post_yields (hmay : Tolerant may) (hzone : zone.Denotes clocks valuations)
    (hmove : move.Tolerated may clocks) :
    Yields may (move.post zone) (·.Denotes clocks fun after ↦
      ∃ before, valuations before ∧ move.Leads before after) := by
  obtain rfl := hzone.clocks_eq
  have hwait := Draft.wait_yields hmay (Draft.denotes_draft hzone) move.sourceUrgent hmove.source
  rw [post, ← bind_assoc]
  refine hwait.bind fun waiting hwaiting ↦ ?_
  refine (Draft.executeAll_yields hmay hwaiting hmove.commands).bind fun executed hexecuted ↦ ?_
  refine (Draft.restrictAll_yields hmay hexecuted hmove.target).bind fun arrived harrived ↦ ?_
  refine (Draft.finish_yields hmay harrived).mono fun image himage ↦ himage.congr fun after ↦ ?_
  simp only [Leads]
  constructor
  · rintro ⟨⟨ready, ⟨before, hbefore, hwaits⟩, hleads⟩, hsatisfies⟩
    exact ⟨before, hbefore, ready, hwaits, hleads, hsatisfies⟩
  · rintro ⟨before, hbefore, ready, hwaits, hleads, hsatisfies⟩
    exact ⟨⟨ready, ⟨before, hbefore, hwaits⟩, hleads⟩, hsatisfies⟩

end Move

end TimedSafety
