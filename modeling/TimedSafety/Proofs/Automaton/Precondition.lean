import TimedSafety.Proofs.Automaton.Successor

/-!
Just what the image before a move contains. Undoing a command leaves the valuations from which the
command leads into the draft (`undo_yields`), and undoing commands in reverse order leaves those
from which they lead there one after the other (`undoAll_yields`). So the image before a move of
guards and resets holds the valuations that satisfy the invariants of the source and can wait until
the invariants of the target hold and the commands lead into the zone; a move with other commands
has no such image (`pre_exact`).

That is not yet a step into the zone. The invariants of the source may have run out by the end of
the wait, and those of the target may be false after the commands (`pre_without_step`). What the
image holds has a step if time or the move keep the former, and the resets or the zone the latter
(`leads_of_mem_pre`).
-/

set_option autoImplicit false

namespace TimedSafety

/-! ### Undoing commands -/

namespace Command

/-- The command can be undone, and the faults for a clock or a constant out of range are admitted,
where they can arise. -/
structure Undoable (may : Fault → Prop) (clocks : Nat) (command : Command) : Prop where
  reversible : command.isReversible = true
  clock : ∀ clock ∈ command.clocks, clocks < clock.id → may (.clockOutOfRange clock clocks)
  constant : ∀ value ∈ command.constant?, ¬ (-maxConstant ≤ value ∧ value ≤ maxConstant) →
    ∀ subject, may (.constantOutOfRange value subject)

end Command

namespace Draft

variable {clocks : Nat} {may : Fault → Prop} {draft : Draft clocks}
  {valuations : Valuation → Prop}

theorem Denotes.nonNegative (hdraft : draft.Denotes valuations) {valuation : Valuation}
    (hvaluation : valuations valuation) : valuation.NonNegative := by
  obtain ⟨hclocks, hadmits⟩ := (hdraft.mem_iff valuation).mpr hvaluation
  exact (Valuation.nonNegative_iff hclocks).mpr
    ((hdraft.wellFormed.grounded hadmits.isEmpty_eq).reference_le hadmits)

/-- Undoing a command leaves just the valuations from which it leads into the draft. -/
theorem undo_yields (hmay : Tolerant may) (hdraft : draft.Denotes valuations) (edge : EdgeId)
    {command : Command} (hcommand : command.Undoable may clocks) :
    Yields may (draft.undo edge command) (·.Denotes fun before ↦
      before.NonNegative ∧ ∃ after, valuations after ∧ command.Leads before after) := by
  cases command with
  | reset clock value =>
    refine (Constraint.unit_tolerated (hcommand.constant value rfl)).bind ?_
    rintro exactly rfl
    have hequal : (Constraint.compare clock none .equal value).Tolerated may clocks :=
      hcommand.clock
    refine (restrict_yields hmay hdraft hequal).bind fun hit hhit ↦ ?_
    refine (free_yields hmay hhit (hcommand.clock clock (by simp [Command.clocks]))).mono
      fun undone hundone ↦ hundone.congr fun before ↦ ?_
    constructor
    · rintro ⟨after, ⟨hafter, hholds⟩, hback⟩
      obtain ⟨hbefore, hleads⟩ :=
        (Command.leads_reset_iff_free (hdraft.nonNegative hafter)).mpr ⟨hholds, hback⟩
      exact ⟨hbefore, after, hafter, hleads⟩
    · rintro ⟨hbefore, after, hafter, hleads⟩
      obtain ⟨hholds, hback⟩ :=
        (Command.leads_reset_iff_free (hdraft.nonNegative hafter)).mp ⟨hbefore, hleads⟩
      exact ⟨after, ⟨hafter, hholds⟩, hback⟩
  | guard constraint =>
    refine (restrict_yields hmay hdraft hcommand.clock).mono
      fun undone hundone ↦ hundone.congr fun before ↦ ?_
    simp only [Command.leads_guard_iff]
    constructor
    · rintro ⟨hbefore, hholds⟩
      exact ⟨hdraft.nonNegative hbefore, before, hbefore, hholds, rfl⟩
    · rintro ⟨-, after, hafter, hholds, rfl⟩
      exact ⟨hafter, hholds⟩
  | copy clock source => simpa [Command.isReversible] using hcommand.reversible
  | shift clock offset => simpa [Command.isReversible] using hcommand.reversible
  | free clock => simpa [Command.isReversible] using hcommand.reversible

/-- Undoing commands, the last one first, leaves just the valuations from which they lead into the
draft. -/
theorem undoAll_yields (hmay : Tolerant may) (hdraft : draft.Denotes valuations) (edge : EdgeId)
    {commands : List Command} (hcommands : ∀ command ∈ commands, command.Undoable may clocks) :
    Yields may (commands.reverse.foldlM (undo edge) draft) (·.Denotes fun before ↦
      before.NonNegative ∧ ∃ after, valuations after ∧ Command.LeadAll commands before after) := by
  refine Yields.foldlM_reverse (fun done (current : Draft clocks) ↦ current.Denotes fun before ↦
    before.NonNegative ∧ ∃ after, valuations after ∧ Command.LeadAll done before after) ?_ ?_
  · refine hdraft.congr fun before ↦ ?_
    simpa using fun hbefore ↦ hdraft.nonNegative hbefore
  · intro next hnext done current hcurrent
    refine (undo_yields hmay hcurrent edge (hcommands next hnext)).mono
      fun undone hundone ↦ hundone.congr fun before ↦ and_congr_right fun hbefore ↦ ?_
    simp only [Command.leadAll_cons_iff]
    constructor
    · rintro ⟨between, ⟨-, after, hafter, hlater⟩, hfirst⟩
      exact ⟨after, hafter, between, hfirst, hlater⟩
    · rintro ⟨after, hafter, between, hfirst, hlater⟩
      exact ⟨between, ⟨hfirst.keeps.2 hbefore, after, hafter, hlater⟩, hfirst⟩

/-- Undoing has a result only for a command that can be undone. -/
theorem undo_refuses (hmay : Lenient may) (draft : Draft clocks) (edge : EdgeId) {command : Command}
    (hclocks : ∀ clock ∈ command.clocks, clocks < clock.id → may (.clockOutOfRange clock clocks))
    (hrefused : command.isReversible = false → may (.irreversible command.text edge)) :
    Yields may (draft.undo edge command) fun _ ↦ command.isReversible = true := by
  cases hreversible : command.isReversible with
  | true => exact (undo_covers hmay draft edge hclocks hreversible).mono fun _ _ ↦ rfl
  | false =>
    cases command with
    | reset clock value => simp [Command.isReversible] at hreversible
    | guard constraint => simp [Command.isReversible] at hreversible
    | copy clock source => exact hrefused hreversible
    | shift clock offset => exact hrefused hreversible
    | free clock => exact hrefused hreversible

end Draft

/-! ### The image before a move -/

namespace Move

variable {may : Fault → Prop} {move : Move} {zone : Zone} {clocks : Nat}
  {valuations : Valuation → Prop}

/-- The valuation satisfies the invariants of the source, and can wait until those of the target
hold and the commands lead into the set. -/
def Precedes (move : Move) (valuations : Valuation → Prop) (before : Valuation) : Prop :=
  before.NonNegative ∧ before.Satisfies move.sourceInvariants ∧
    ∃ duration : Rat, 0 ≤ duration ∧ (move.sourceUrgent = true → duration = 0) ∧
      (before.later duration).Satisfies move.targetInvariants ∧
      ∃ after, valuations after ∧ Command.LeadAll move.commands (before.later duration) after

/-- The move can be undone, and the faults that this can cause are admitted. -/
structure Undoable (may : Fault → Prop) (clocks : Nat) (move : Move) : Prop where
  source : ∀ constraint ∈ move.sourceInvariants, constraint.Tolerated may clocks
  commands : ∀ command ∈ move.commands, command.Undoable may clocks
  target : ∀ constraint ∈ move.targetInvariants, constraint.Tolerated may clocks

theorem Within.undoable (hwithin : move.Within clocks)
    (hreversible : ∀ command ∈ move.commands, command.isReversible = true)
    (hconstants : ∀ command ∈ move.commands, ∀ value ∈ command.constant?,
      ¬ (-maxConstant ≤ value ∧ value ≤ maxConstant) →
        ∀ subject, may (.constantOutOfRange value subject)) : move.Undoable may clocks where
  source constraint hmem := (hwithin.source constraint hmem).tolerated may
  commands command hmem := by
    refine ⟨hreversible command hmem, fun clock hclock hlt ↦ ?_, hconstants command hmem⟩
    exact absurd (hwithin.commands command hmem clock hclock) (not_le.mpr hlt)
  target constraint hmem := (hwithin.target constraint hmem).tolerated may

/-- The image before a move contains just what precedes the zone. -/
theorem pre_yields (hmay : Tolerant may) (hzone : zone.Denotes clocks valuations)
    (hmove : move.Undoable may clocks) :
    Yields may (move.pre zone) (·.Denotes clocks (move.Precedes valuations)) := by
  obtain rfl := hzone.clocks_eq
  refine (Draft.undoAll_yields hmay (Draft.denotes_draft hzone) move.edge hmove.commands).bind
    fun undone hundone ↦ ?_
  refine (Draft.restrictAll_yields hmay hundone hmove.target).bind fun arrived harrived ↦ ?_
  refine (Draft.undelay_yields hmay harrived (fun _ hready ↦ hready.1.1) move.sourceUrgent).bind
    fun delayed hdelayed ↦ ?_
  refine (Draft.restrictAll_yields hmay hdelayed hmove.source).bind fun waiting hwaiting ↦ ?_
  refine (Draft.finish_yields hmay hwaiting).mono fun image himage ↦ himage.congr fun before ↦ ?_
  constructor
  · rintro ⟨⟨hbefore, duration, hduration, hurgent, ⟨-, hafter⟩, htarget⟩, hsource⟩
    exact ⟨hbefore, hsource, duration, hduration, hurgent, htarget, hafter⟩
  · rintro ⟨hbefore, hsource, duration, hduration, hurgent, htarget, hafter⟩
    refine ⟨⟨hbefore, duration, hduration, hurgent, ⟨?_, hafter⟩, htarget⟩, hsource⟩
    exact hbefore.later hduration

/-- A fault with which the image before a move is refused. For a move over the clocks it names a
command that cannot be undone and the edge, unless it is an excess. -/
def Refuses (move : Move) (clocks : Nat) (fault : Fault) : Prop :=
  move.Within clocks → fault.IsExcess ∨ ∃ command ∈ move.commands,
    command.isReversible = false ∧ fault = .irreversible command.text move.edge

theorem lenient_refuses (move : Move) (clocks : Nat) : Lenient (move.Refuses clocks) where
  tolerant fault hfault _ := Or.inl (lenient_isExcess.tolerant fault hfault)
  constant _ _ _ := Or.inl trivial

/-- A move with a command that cannot be undone has no image before it. -/
theorem pre_refuses {command : Command} (hmem : command ∈ move.commands)
    (hirreversible : command.isReversible = false) (zone : Zone) :
    ∃ fault, move.pre zone = .error fault ∧ move.Refuses zone.clocks fault := by
  have hfold : Yields (move.Refuses zone.clocks)
      (move.commands.reverse.foldlM (Draft.undo move.edge) zone.draft) fun _ ↦
        ∀ undone ∈ move.commands, undone.isReversible = true := by
    refine Yields.foldlM_reverse (fun (done : List Command) (_ : Draft zone.clocks) ↦
      ∀ undone ∈ done, undone.isReversible = true) (by simp) ?_
    intro next hnext done current hdone
    have hclocks : ∀ clock ∈ next.clocks, zone.clocks < clock.id →
        move.Refuses zone.clocks (.clockOutOfRange clock zone.clocks) :=
      fun clock hclock hlt hwithin ↦
        absurd (hwithin.commands next hnext clock hclock) (not_le.mpr hlt)
    have hrefused : next.isReversible = false →
        move.Refuses zone.clocks (.irreversible next.text move.edge) :=
      fun hfixed _ ↦ Or.inr ⟨next, hnext, hfixed, rfl⟩
    refine (Draft.undo_refuses (move.lenient_refuses zone.clocks) current move.edge hclocks
      hrefused).mono fun _ hreversible ↦ ?_
    exact List.forall_mem_cons.mpr ⟨hreversible, hdone⟩
  cases hundone : move.commands.reverse.foldlM (Draft.undo move.edge) zone.draft with
  | ok undone =>
    have hreversible := hfold.result hundone command hmem
    rw [hirreversible] at hreversible
    contradiction
  | error fault =>
    refine ⟨fault, ?_, hfold.fault hundone⟩
    rw [pre, hundone]
    rfl

/-- The image before a move of guards and checked resets holds just what precedes the zone, unless
it overflows. A move with any other command has no image before it. -/
theorem pre_exact (move : Move) :
    (∀ (clocks : Nat) (zone : Zone), zone.Built clocks → move.Within clocks →
      (∀ command ∈ move.commands, command.isReversible = true ∧ command.Checked) →
      Yields Fault.IsOverflow (move.pre zone) fun image ↦
        ∀ before, before ∈ image ↔ move.Precedes (· ∈ zone) before) ∧
    ∀ command ∈ move.commands, command.isReversible = false → ∀ zone : Zone,
      ∃ fault, move.pre zone = .error fault ∧ move.Refuses zone.clocks fault := by
  constructor
  · intro clocks zone hzone hwithin hcommands
    have hundoable : move.Undoable Fault.IsOverflow clocks := by
      refine hwithin.undoable (fun command hmem ↦ (hcommands command hmem).1) ?_
      intro command hmem value hvalue hrange
      exact absurd ((hcommands command hmem).2.range hvalue) hrange
    exact (pre_yields tolerant_isOverflow hzone.denotes hundoable).mono
      fun image himage ↦ himage.mem_iff
  · intro command hmem hirreversible zone
    exact pre_refuses hmem hirreversible zone

end Move

namespace Automaton

/-- A move that begins while the first clock is at most five and at least three ahead of the second.
It needs the first to be four and resets the second. -/
def sluiceMove : Move :=
  let first : Clock := ⟨1, Nat.one_pos⟩
  let second : Clock := ⟨2, Nat.two_pos⟩
  bridgeMove [.compare first none .atMost 5, .compare first (some second) .atLeast 3]
    [.compare second none .atMost 1, .compare first none .atLeast 1]
    [.guard (.compare first none .atLeast 4), .reset second 0]

/-- Where it can end: the first clock is from four to five and the second zero. -/
def sluiceZone : Zone where
  clocks := 2
  matrix := ⟨#v[#v[.atMost 0, .atMost (-4), .atMost 0], #v[.atMost 5, .atMost 0, .atMost 5],
    #v[.atMost 0, .atMost (-4), .atMost 0]]⟩

/-- What precedes that: the first clock is at most five and at least three ahead, and the second at
most one. -/
def sluiceImage : Zone where
  clocks := 2
  matrix := ⟨#v[#v[.atMost 0, .atMost (-3), .atMost 0], #v[.atMost 5, .atMost 0, .atMost 5],
    #v[.atMost 1, .atMost (-3), .atMost 0]]⟩

theorem sluiceZone_built : sluiceZone.Built 2 := by
  have hmade : (ZoneBase.top.zone 2).transform
      [.restrict (.compare ⟨1, Nat.one_pos⟩ none .atLeast 4),
        .restrict (.compare ⟨1, Nat.one_pos⟩ none .atMost 5), .reset ⟨2, Nat.two_pos⟩ 0] =
      .ok sluiceZone := by
    decide +kernel
  exact .transform (.base .top) (by simp [ZoneStep.KeepsNonNegative]) (by simp) hmade

theorem build_sluice :
    (bridge ["x", "y"] sluiceMove).build = .ok (bridgeAutomaton ["x", "y"] sluiceMove) := by
  decide +kernel

theorem move_sluice : (bridgeAutomaton ["x", "y"] sluiceMove).move ⟨0⟩ = .ok sluiceMove := rfl

theorem pre_sluice : sluiceMove.pre sluiceZone = .ok sluiceImage := by decide +kernel

theorem pre_exact_sluice_kiln :
    (∀ before, before ∈ sluiceImage ↔ sluiceMove.Precedes (· ∈ sluiceZone) before) ∧
    ∀ zone : Zone, ∃ fault, kilnMove.pre zone = .error fault ∧
      kilnMove.Refuses zone.clocks fault := by
  have hwithin : sluiceMove.Within 2 :=
    (AutomatonDraft.wellFormed_of_build build_sluice).moveWithin move_sluice
  have hcommands : ∀ command ∈ sluiceMove.commands,
      command.isReversible = true ∧ command.Checked := by
    decide +kernel
  have hexact := (Move.pre_exact sluiceMove).1 2 sluiceZone sluiceZone_built hwithin hcommands
  refine ⟨hexact.result pre_sluice, (Move.pre_exact kilnMove).2 (.free ⟨2, Nat.two_pos⟩) ?_ rfl⟩
  decide

/-- A zone over two clocks in which the second is at most one and at least six. -/
def scuttledZone : Zone where
  clocks := 2
  matrix := ⟨#v[#v[.atMost 0, .atMost 0, .atMost (-6)], #v[.infinite, .atMost 0, .infinite],
    #v[.atMost 1, .atMost 1, .atMost 0]]⟩

/-- A construction with a negative reset ends in a zone that contains nothing. Nothing precedes it,
and yet the image before a move that asks for nothing and changes nothing contains a valuation. -/
theorem pre_scuttledZone :
    (bridge ["x", "y"] (bridgeMove [] [] [])).build =
      .ok (bridgeAutomaton ["x", "y"] (bridgeMove [] [] [])) ∧
    (Zone.top 2).transform [.reset ⟨1, Nat.one_pos⟩ (-5), .reset ⟨2, Nat.two_pos⟩ 1, .down,
      .free ⟨1, Nat.one_pos⟩] = .ok scuttledZone ∧
    (∀ before, ¬ (bridgeMove [] [] []).Precedes (· ∈ scuttledZone) before) ∧
    ∃ image, (bridgeMove [] [] []).pre scuttledZone = .ok image ∧ ⟨[0, 0]⟩ ∈ image := by
  have hnone : ∀ valuation, valuation ∉ scuttledZone :=
    Zone.not_mem_of_close_eq_empty (by decide +kernel)
  refine ⟨by decide +kernel, by decide +kernel, ?_, ⟨2, ⟨#v[#v[.atMost 0, .atMost 0, .atMost 0],
    #v[.infinite, .atMost 0, .infinite], #v[.atMost 1, .atMost 1, .atMost 0]]⟩⟩,
    by decide +kernel, ?_⟩
  · rintro before ⟨-, -, duration, -, -, -, after, hafter, -⟩
    exact hnone after hafter
  · change Zone.contains _ _ = _
    decide +kernel

end Automaton

/-! ### Steps into the zone -/

namespace Constraint

/-- Time cannot make the constraint false: it does not bound a clock from above. -/
def Endures : Constraint → Prop
  | compare _ none comparison _ => comparison = .atLeast ∨ comparison = .greater
  | always | never | compare _ (some _) _ _ => True

theorem Endures.holds_later {constraint : Constraint} (hendures : constraint.Endures)
    {valuation : Valuation} (hholds : constraint.holds valuation = .ok true) {duration : Rat}
    (hduration : 0 ≤ duration) : constraint.holds (valuation.later duration) = .ok true := by
  cases constraint with
  | always => rfl
  | never => exact hholds
  | compare left right comparison bound =>
    cases right with
    | none =>
      rw [← valuation.later_zero, holds_unit_later_iff] at hholds
      rw [holds_unit_later_iff]
      obtain ⟨value, hvalue, htest⟩ := hholds
      have hle : value + 0 ≤ value + duration := add_le_add_right hduration value
      refine ⟨value, hvalue, ?_⟩
      rcases hendures with rfl | rfl
      · exact decide_eq_true ((of_decide_eq_true htest : (bound : Rat) ≤ value + 0).trans hle)
      · exact decide_eq_true ((of_decide_eq_true htest : (bound : Rat) < value + 0).trans_le hle)
    | some right => rwa [holds_difference_later]

end Constraint

namespace Move

/-- Wherever the commands start and lead into the zone, the constraint holds. -/
def Enforces (move : Move) (zone : Zone) (constraint : Constraint) : Prop :=
  ∀ ready after : Valuation, ready.Satisfies move.targetInvariants →
    Command.LeadAll move.commands ready after → after ∈ zone → constraint.holds ready = .ok true

/-- A constraint on clocks that are not reset is enforced by a zone in which it holds. -/
theorem Spares.enforces {move : Move} {constraint : Constraint} (hspares : move.Spares constraint)
    (hreversible : move.isReversible = true) {zone : Zone}
    (hholds : ∀ after ∈ zone, constraint.holds after = .ok true) :
    move.Enforces zone constraint := by
  intro ready after _ hcommands hafter
  rw [hcommands.holds_eq (List.all_eq_true.mp hreversible) hspares]
  exact hholds after hafter

end Move

namespace Automaton

variable {automaton : Automaton}

/-- What the image before a move of guards and resets contains has a step into the zone. For this,
each invariant of the source has to endure waiting or be enforced by the move, unless the source is
urgent, and each invariant of the target has to be on clocks that are not reset or hold throughout
the zone. No fault other than an excess of constants arises. -/
theorem leads_of_mem_pre {draft : AutomatonDraft} (hbuild : draft.build = .ok automaton)
    {edge : EdgeId} {move : Move} (hmove : automaton.move edge = .ok move)
    (hreversible : move.isReversible = true) {zone : Zone} (hzone : zone.Built automaton.clocks)
    (hsource : move.sourceUrgent = true ∨ ∀ constraint ∈ move.sourceInvariants,
      constraint.Endures ∨ move.Enforces zone constraint)
    (htarget : ∀ constraint ∈ move.targetInvariants,
      move.Spares constraint ∨ ∀ after ∈ zone, constraint.holds after = .ok true) :
    Yields Fault.IsExcess (move.pre zone) fun image ↦
      ∀ before ∈ image, ∃ after ∈ zone, move.Leads before after := by
  have hwell := AutomatonDraft.wellFormed_of_build hbuild
  have hcommands := List.all_eq_true.mp hreversible
  have hundoable : move.Undoable Fault.IsExcess automaton.clocks :=
    (hwell.moveWithin hmove).undoable hcommands fun _ _ value _ _ subject ↦
      lenient_isExcess.constant value subject
  refine (Move.pre_yields lenient_isExcess.tolerant hzone.denotes hundoable).mono
    fun image himage before hbefore ↦ ?_
  obtain ⟨-, hhere, duration, hduration, hurgent, hready, after, hafter, hleads⟩ :=
    (himage.mem_iff before).mp hbefore
  have hstill : (before.later duration).Satisfies move.sourceInvariants := by
    rcases hsource with hnow | hkept
    · rwa [hurgent hnow, Valuation.later_zero]
    · intro constraint hmem
      rcases hkept constraint hmem with hendures | henforces
      · exact hendures.holds_later (hhere constraint hmem) hduration
      · exact henforces _ after hready hleads hafter
  have harrives : after.Satisfies move.targetInvariants := by
    intro constraint hmem
    rcases htarget constraint hmem with hspares | hholds
    · rw [← hleads.holds_eq hcommands hspares]
      exact hready constraint hmem
    · exact hholds after hafter
  exact ⟨after, hafter, before.later duration, ⟨duration, hduration, hurgent, rfl, hstill⟩, hleads,
    harrives⟩

theorem leads_of_mem_pre_sluice : sluiceMove.pre sluiceZone = .ok sluiceImage ∧
    ⟨[3, 0]⟩ ∈ sluiceImage ∧
    ∀ before ∈ sluiceImage, ∃ after ∈ sluiceZone, sluiceMove.Leads before after := by
  have hupper : ∀ after ∈ sluiceZone,
      after.Satisfies [.compare ⟨1, Nat.one_pos⟩ none .atMost 5] :=
    Zone.satisfies_of_restrictAll_eq sluiceZone_built.denotes (by decide +kernel)
  have harrival : ∀ after ∈ sluiceZone,
      after.Satisfies [.compare ⟨2, Nat.two_pos⟩ none .atMost 1] :=
    Zone.satisfies_of_restrictAll_eq sluiceZone_built.denotes (by decide +kernel)
  have hspares : ∀ comparison bound,
      sluiceMove.Spares (.compare ⟨1, Nat.one_pos⟩ none comparison bound) := by
    simp [sluiceMove, bridgeMove, Move.Spares, Constraint.clocks]
  have hsource : ∀ constraint ∈ sluiceMove.sourceInvariants,
      constraint.Endures ∨ sluiceMove.Enforces sluiceZone constraint := by
    refine List.forall_mem_cons.mpr ⟨Or.inr ?_, List.forall_mem_singleton.mpr (Or.inl trivial)⟩
    exact (hspares _ _).enforces rfl fun after hafter ↦ hupper after hafter _ List.mem_cons_self
  have htarget : ∀ constraint ∈ sluiceMove.targetInvariants,
      sluiceMove.Spares constraint ∨ ∀ after ∈ sluiceZone, constraint.holds after = .ok true := by
    refine List.forall_mem_cons.mpr ⟨Or.inr fun after hafter ↦ ?_,
      List.forall_mem_singleton.mpr (Or.inl (hspares _ _))⟩
    exact harrival after hafter _ List.mem_cons_self
  have hsteps := leads_of_mem_pre build_sluice move_sluice rfl sluiceZone_built (Or.inr hsource)
    htarget
  refine ⟨pre_sluice, ?_, hsteps.result pre_sluice⟩
  change Zone.contains _ _ = _
  decide +kernel

/-- A move that has to wait for five, while the invariant of its source ends at one. -/
def lateMove : Move :=
  bridgeMove [.compare ⟨1, Nat.one_pos⟩ none .atMost 1] []
    [.guard (.compare ⟨1, Nat.one_pos⟩ none .atLeast 5)]

/-- A move that resets a clock to three, while the invariant of its target ends at one. -/
def overshootingMove : Move :=
  bridgeMove [] [.compare ⟨1, Nat.one_pos⟩ none .atMost 1] [.reset ⟨1, Nat.one_pos⟩ 3]

theorem not_leads_lateMove (before after : Valuation) : ¬ lateMove.Leads before after := by
  rintro ⟨ready, ⟨-, -, -, -, hsource⟩, hcommands, -⟩
  obtain ⟨between, hguard, -⟩ := Command.leadAll_cons_iff.mp hcommands
  have hlow := hsource _ List.mem_cons_self
  have hhigh := (Command.leads_guard_iff.mp hguard).1
  rw [← ready.later_zero, Constraint.holds_unit_later_iff] at hlow hhigh
  obtain ⟨value, hvalue, hlow⟩ := hlow
  obtain ⟨other, hother, hhigh⟩ := hhigh
  obtain rfl : value = other := Except.ok.inj (hvalue.symm.trans hother)
  have hle : value + 0 ≤ (1 : Int) := of_decide_eq_true hlow
  have hge : (5 : Int) ≤ value + 0 := of_decide_eq_true hhigh
  have habsurd := hge.trans hle
  norm_num at habsurd

theorem not_leads_overshootingMove (after : Valuation) :
    ¬ overshootingMove.Leads ⟨[0]⟩ after := by
  rintro ⟨ready, ⟨duration, -, -, rfl, -⟩, hcommands, htarget⟩
  obtain ⟨between, hreset, hrest⟩ := Command.leadAll_cons_iff.mp hcommands
  obtain rfl := Command.leadAll_nil_iff.mp hrest
  have hlow := htarget _ List.mem_cons_self
  rw [(Command.eq_write_of_leads hreset).2] at hlow
  change (Constraint.compare ⟨1, Nat.one_pos⟩ none .atMost 1).holds ⟨[((3 : Int) : Rat)]⟩ =
    .ok true at hlow
  revert hlow
  decide

/-- The image before a move can hold a valuation that has no step: one whose wait leaves the
invariant of the source, and one whose reset breaks the invariant of the target. -/
theorem pre_without_step :
    ((bridge ["x"] lateMove).build = .ok (bridgeAutomaton ["x"] lateMove) ∧
      ∃ image, lateMove.pre (Zone.top 1) = .ok image ∧ ⟨[0]⟩ ∈ image ∧
        ∀ after, ¬ lateMove.Leads ⟨[0]⟩ after) ∧
    (bridge ["x"] overshootingMove).build = .ok (bridgeAutomaton ["x"] overshootingMove) ∧
      ∃ image, overshootingMove.pre (Zone.top 1) = .ok image ∧ ⟨[0]⟩ ∈ image ∧
        ∀ after, ¬ overshootingMove.Leads ⟨[0]⟩ after := by
  have hmem : (⟨[0]⟩ : Valuation) ∈
      Zone.mk 1 ⟨#v[#v[.atMost 0, .atMost 0], #v[.atMost 1, .atMost 0]]⟩ := by
    change Zone.contains _ _ = _
    decide +kernel
  exact ⟨⟨by decide +kernel, _, by decide +kernel, hmem, not_leads_lateMove ⟨[0]⟩⟩,
    by decide +kernel, _, by decide +kernel, hmem, not_leads_overshootingMove⟩

end Automaton

end TimedSafety
