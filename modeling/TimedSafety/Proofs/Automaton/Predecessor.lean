import TimedSafety.Proofs.Automaton.Meaning
import TimedSafety.Proofs.Zone.Construction

/-!
What the image before a move is sure to contain, whatever zone it is computed from. Undoing a
command keeps every valuation from which the command leads into the draft (`undo_covers`), and so
does undoing all of them (`undoAll_covers`).

The image asks the invariants of the target before the commands have run, not after. So it contains
a valuation with a step into the zone if each invariant of the target is true already where the
commands start, or names no clock that they reset (`mem_pre_of_step`). Without that it can miss one:
a move that resets a clock to meet an invariant of its target (`not_mem_pre_wicket`).
-/

set_option autoImplicit false

namespace TimedSafety

/-! ### What operators keep -/

namespace Draft

variable {clocks : Nat} {may : Fault → Prop} {draft : Draft clocks}

/-- What an operator keeps of the points of any matrix, it keeps of the valuations of a draft. -/
theorem onClosed_covers (hmay : Tolerant may) (draft : Draft clocks)
    {operator : BoundMatrix clocks → Except Fault (Draft clocks)}
    {relation : Valuation → Valuation → Prop}
    (hoperator : ∀ matrix : BoundMatrix clocks, Yields may (operator matrix) fun after ↦
      ∀ source : Valuation, source.clocks = clocks → matrix.Admits (source.point clocks) →
        ∀ result, relation source result → result ∈ after) :
    Yields may (draft.onClosed operator) fun after ↦
      ∀ source ∈ draft, ∀ result, relation source result → result ∈ after := by
  unfold onClosed
  refine (settle_mem hmay draft).bind fun settled hsettled ↦ ?_
  by_cases hempty : settled.matrix.isEmpty = true
  · rw [if_pos hempty]
    intro source hsource
    have hadmits := ((hsettled source).mpr hsource).2
    rw [hadmits.isEmpty_eq] at hempty
    contradiction
  · rw [if_neg hempty]
    refine (hoperator settled.matrix).mono fun after hafter source hsource ↦ ?_
    obtain ⟨hsize, hadmits⟩ := (hsettled source).mpr hsource
    exact hafter source hsize hadmits

theorem free_covers (hmay : Tolerant may) (draft : Draft clocks) {clock : Clock}
    (hclock : clocks < clock.id → may (.clockOutOfRange clock clocks)) :
    Yields may (draft.free clock) fun after ↦ ∀ source ∈ draft, ∀ result,
      (Command.free clock).Leads source result → result ∈ after := by
  unfold free
  refine (Valuation.indexOf_yields hclock).bind fun x hx ↦ ?_
  refine onClosed_covers hmay draft fun matrix source hsize hadmits result hleads ↦ ?_
  obtain ⟨value, hvalue, rfl⟩ := (Command.leads_free_iff hsize hx).mp hleads
  have hreference := Valuation.index_ne_reference hx
  have hformer : matrix.Admits (Function.update (Function.update (source.point clocks) x value) x
      (source.point clocks x)) := by
    rwa [Function.update_idem, Function.update_eq_self]
  refine ⟨(Valuation.clocks_write _ _ _).trans hsize, ?_⟩
  rw [Valuation.point_write hsize hx]
  refine hformer.free hreference ?_
  rwa [Function.update_self, Function.update_of_ne (Ne.symm hreference), Valuation.point_reference]

theorem down_covers (hmay : Tolerant may) (draft : Draft clocks) :
    Yields may draft.down fun after ↦ ∀ source ∈ draft, ∀ result : Valuation,
      (result.NonNegative ∧ ∃ duration, 0 ≤ duration ∧ source = result.later duration) →
        result ∈ after := by
  unfold down
  refine onClosed_covers hmay draft fun matrix source hsize hadmits result ↦ ?_
  rintro ⟨hnonnegative, duration, hduration, rfl⟩
  rw [Valuation.clocks_later] at hsize
  rw [Valuation.point_later hsize] at hadmits
  exact ⟨hsize, hadmits.down hduration ((Valuation.nonNegative_iff hsize).mp hnonnegative)⟩

/-- Going back in time, except at an urgent location, keeps what leads into the draft. -/
theorem undelay_covers (hmay : Tolerant may) (draft : Draft clocks) (urgent : Bool) :
    Yields may (draft.undelay urgent) fun after ↦ ∀ (result : Valuation) (duration : Rat),
      result.NonNegative → 0 ≤ duration → (urgent = true → duration = 0) →
        result.later duration ∈ draft → result ∈ after := by
  unfold undelay
  cases urgent with
  | true =>
    intro result duration _ _ hurgent hmem
    rwa [hurgent rfl, Valuation.later_zero] at hmem
  | false =>
    refine (down_covers hmay draft).mono fun after hafter ↦ ?_
    intro result duration hsign hduration _ hmem
    exact hafter _ hmem result ⟨hsign, duration, hduration, rfl⟩

end Draft

/-! ### Undoing commands -/

namespace Command

variable {clock : Clock} {value : Int} {before after : Valuation}

/-- A reset that leads anywhere writes its clock, which is in range. -/
theorem eq_write_of_leads (hleads : (reset clock value).Leads before after) :
    clock.id ≤ before.clocks ∧ after = before.write clock value := by
  simp only [Leads, apply, Valuation.set] at hleads
  split_ifs at hleads with _ hclock
  · simp [bind, Except.bind] at hleads
  · exact ⟨hclock, (Option.some.inj (Except.ok.inj hleads)).symm⟩
  · simp [bind, Except.bind] at hleads

theorem le_clocks_of_leads_free (hleads : (free clock).Leads before after) :
    clock.id ≤ before.clocks := by
  obtain ⟨freed, -, hset⟩ := hleads
  unfold Valuation.set at hset
  split_ifs at hset with _ hclock
  exact hclock

/-- A reset is undone by freeing its clock where that has the value of the reset. -/
theorem leads_reset_iff_free (hafter : after.NonNegative) :
    before.NonNegative ∧ (reset clock value).Leads before after ↔
      (Constraint.compare clock none .equal value).holds after = .ok true ∧
        (free clock).Leads after before := by
  have hholds : ∀ {i : Index after.clocks}, i.val = clock.id →
      ((Constraint.compare clock none .equal value).holds after = .ok true ↔
        after.point after.clocks i = value) := by
    intro i hi
    rw [Constraint.holds_unit_iff rfl hi, Valuation.point_reference, sub_zero]
    simp [Comparison.test]
  constructor
  · rintro ⟨hbefore, hleads⟩
    have hsize : before.clocks = after.clocks := hleads.keeps.1.symm
    obtain ⟨hclock, hwritten⟩ := eq_write_of_leads hleads
    obtain ⟨i, hi⟩ : ∃ i : Index after.clocks, i.val = clock.id :=
      ⟨⟨clock.id, Nat.lt_succ_of_le (hsize ▸ hclock)⟩, rfl⟩
    refine ⟨(hholds hi).mpr ?_, (leads_free_iff rfl hi).mpr ?_⟩
    · have hpoint := congrArg (Valuation.point after.clocks) hwritten
      rw [Valuation.point_write hsize hi] at hpoint
      rw [hpoint, Function.update_self]
    · -- The clock gets its former value again.
      refine ⟨before.point after.clocks i, (Valuation.nonNegative_iff hsize).mp hbefore i, ?_⟩
      have hback := Valuation.eq_write_point hsize hi value
      rwa [← hwritten] at hback
  · rintro ⟨hvalue, hleads⟩
    obtain ⟨i, hi⟩ : ∃ i : Index after.clocks, i.val = clock.id :=
      ⟨⟨clock.id, Nat.lt_succ_of_le (le_clocks_of_leads_free hleads)⟩, rfl⟩
    rw [hholds hi] at hvalue
    have hbefore := hleads.keeps.2 hafter
    obtain ⟨freed, -, hwritten⟩ := (leads_free_iff rfl hi).mp hleads
    have hsize : before.clocks = after.clocks := hleads.keeps.1
    refine ⟨hbefore, (leads_reset_iff hsize hi value).mpr ⟨?_, ?_⟩⟩
    · rw [← hvalue]
      exact (Valuation.nonNegative_iff rfl).mp hafter i
    · rw [← hvalue, hwritten]
      exact Valuation.eq_write_point rfl hi freed

end Command

namespace Draft

variable {clocks : Nat} {may : Fault → Prop} {draft : Draft clocks}

/-- Undoing a command keeps what the command leads into the draft from. -/
theorem undo_covers (hmay : Lenient may) (draft : Draft clocks) (edge : EdgeId) {command : Command}
    (hclocks : ∀ clock ∈ command.clocks, clocks < clock.id → may (.clockOutOfRange clock clocks))
    (hreversible : command.isReversible = true) :
    Yields may (draft.undo edge command) fun undone ↦ ∀ before after : Valuation,
      after ∈ draft → before.NonNegative → command.Leads before after → before ∈ undone := by
  cases command with
  | reset clock value =>
    refine (Constraint.unit_tolerated fun _ subject ↦ hmay.constant value subject).bind ?_
    rintro exactly rfl
    have hequal : (Constraint.compare clock none .equal value).Tolerated may clocks := hclocks
    refine (restrict_mem hmay.tolerant draft hequal).bind fun hit hhit ↦ ?_
    refine (free_covers hmay.tolerant hit (hclocks clock (by simp [Command.clocks]))).mono
      fun undone hundone before after hafter hbefore hleads ↦ ?_
    have hsign := hleads.keeps.2 hbefore
    obtain ⟨hholds, hback⟩ := (Command.leads_reset_iff_free hsign).mp ⟨hbefore, hleads⟩
    exact hundone after ((hhit after).mpr ⟨hafter, hholds⟩) before hback
  | guard constraint =>
    refine (restrict_mem hmay.tolerant draft hclocks).mono
      fun undone hundone before after hafter _ hleads ↦ ?_
    obtain ⟨hholds, rfl⟩ := Command.leads_guard_iff.mp hleads
    exact (hundone after).mpr ⟨hafter, hholds⟩
  | copy clock source => simp [Command.isReversible] at hreversible
  | shift clock offset => simp [Command.isReversible] at hreversible
  | free clock => simp [Command.isReversible] at hreversible

/-- Undoing commands, the last one first, keeps what they lead into the draft from. -/
theorem undoAll_covers (hmay : Lenient may) (draft : Draft clocks) (edge : EdgeId)
    {commands : List Command}
    (hclocks : ∀ command ∈ commands, ∀ clock ∈ command.clocks, clocks < clock.id →
      may (.clockOutOfRange clock clocks))
    (hreversible : ∀ command ∈ commands, command.isReversible = true) :
    Yields may (commands.reverse.foldlM (undo edge) draft) fun undone ↦
      ∀ before after : Valuation, after ∈ draft → before.NonNegative →
        Command.LeadAll commands before after → before ∈ undone := by
  refine Yields.foldlM_reverse (fun done (current : Draft clocks) ↦ ∀ before after : Valuation,
    after ∈ draft → before.NonNegative → Command.LeadAll done before after → before ∈ current) ?_ ?_
  · intro before after hafter _ hleads
    obtain rfl := Command.leadAll_nil_iff.mp hleads
    exact hafter
  · intro next hnext done current hcurrent
    refine (undo_covers hmay current edge (hclocks next hnext) (hreversible next hnext)).mono
      fun undone hundone before after hafter hbefore hleads ↦ ?_
    obtain ⟨between, hfirst, hlater⟩ := Command.leadAll_cons_iff.mp hleads
    have hbetween := hcurrent between after hafter (hfirst.keeps.2 hbefore) hlater
    exact hundone before between hbetween hbefore hfirst

end Draft

/-! ### Constraints on clocks that are not reset -/

theorem Valuation.get_write_of_ne (valuation : Valuation) {clock other : Clock}
    (hne : other ≠ clock) (value : Rat) :
    (valuation.write clock value).get other = valuation.get other := by
  have hposition : clock.id - 1 ≠ other.id - 1 := by
    intro heq
    apply hne
    have hclock := clock.id_pos
    have hother := other.id_pos
    obtain ⟨id, hid⟩ := clock
    obtain ⟨otherId, hotherId⟩ := other
    simp only [Clock.mk.injEq] at *
    omega
  simp [get, write, List.getElem?_set_ne hposition]

/-- A constraint that does not name a clock is not affected by it. -/
theorem Constraint.holds_write (constraint : Constraint) {clock : Clock}
    (hclock : clock ∉ constraint.clocks) (valuation : Valuation) (value : Rat) :
    constraint.holds (valuation.write clock value) = constraint.holds valuation := by
  cases constraint with
  | always => rfl
  | never => rfl
  | compare left right comparison bound =>
    cases right with
    | none =>
      have hleft : left ≠ clock := by
        rintro rfl
        simp [clocks] at hclock
      simp only [holds, valuation.get_write_of_ne hleft]
    | some right =>
      have hleft : left ≠ clock := by
        rintro rfl
        simp [clocks] at hclock
      have hright : right ≠ clock := by
        rintro rfl
        simp [clocks] at hclock
      simp only [holds, valuation.get_write_of_ne hleft, valuation.get_write_of_ne hright]

/-- Guards and resets of other clocks do not change what a constraint says. -/
theorem Command.LeadAll.holds_eq {commands : List Command} {before after : Valuation}
    (hleads : LeadAll commands before after)
    (hreversible : ∀ command ∈ commands, command.isReversible = true) {constraint : Constraint}
    (hclocks : ∀ clock ∈ constraint.clocks, ∀ value, reset clock value ∉ commands) :
    constraint.holds before = constraint.holds after := by
  induction hleads with
  | done valuation => rfl
  | @next command rest before between after hfirst _ ih =>
    have hrest := ih (fun other hother ↦ hreversible other (List.mem_cons_of_mem _ hother))
      fun clock hclock value hmem ↦ hclocks clock hclock value (List.mem_cons_of_mem _ hmem)
    rw [← hrest]
    cases command with
    | reset clock value =>
      have hother : clock ∉ constraint.clocks := fun hclock ↦
        hclocks clock hclock value List.mem_cons_self
      rw [(eq_write_of_leads hfirst).2, constraint.holds_write hother]
    | guard guarded =>
      obtain ⟨-, rfl⟩ := leads_guard_iff.mp hfirst
      rfl
    | copy clock source => simpa [isReversible] using hreversible _ List.mem_cons_self
    | shift clock offset => simpa [isReversible] using hreversible _ List.mem_cons_self
    | free clock => simpa [isReversible] using hreversible _ List.mem_cons_self

/-! ### Moves -/

namespace Move

/-- All clocks that the move names are among the given number of them. -/
structure Within (move : Move) (clocks : Nat) : Prop where
  source : ∀ constraint ∈ move.sourceInvariants, constraint.Within clocks
  commands : ∀ command ∈ move.commands, ∀ clock ∈ command.clocks, clock.id ≤ clocks
  target : ∀ constraint ∈ move.targetInvariants, constraint.Within clocks

/-- The move resets no clock of the constraint. -/
def Spares (move : Move) (constraint : Constraint) : Prop :=
  ∀ clock ∈ constraint.clocks, ∀ value, Command.reset clock value ∉ move.commands

/-- The image before a move contains what waits, meets the invariants of the target while it waits,
and is led into the zone by the commands. -/
theorem pre_covers {may : Fault → Prop} (hmay : Lenient may) {move : Move} {zone : Zone}
    (hmove : move.Within zone.clocks) (hreversible : move.isReversible = true) :
    Yields may (move.pre zone) fun image ↦ ∀ before ready after : Valuation, after ∈ zone →
      before.NonNegative → before.Satisfies move.sourceInvariants →
      before.Waits ready move.sourceUrgent move.sourceInvariants →
      ready.Satisfies move.targetInvariants → Command.LeadAll move.commands ready after →
      before ∈ image := by
  have htolerant := hmay.tolerant
  have hclocks : ∀ command ∈ move.commands, ∀ clock ∈ command.clocks, zone.clocks < clock.id →
      may (.clockOutOfRange clock zone.clocks) := fun command hmem clock hclock hlt ↦
    absurd (hmove.commands command hmem clock hclock) (not_le.mpr hlt)
  refine (Draft.undoAll_covers hmay zone.draft move.edge hclocks
    (List.all_eq_true.mp hreversible)).bind fun undone hundone ↦ ?_
  refine (Draft.restrictAll_mem htolerant undone fun constraint hmem ↦
    (hmove.target constraint hmem).tolerated may).bind fun arrived harrived ↦ ?_
  refine (Draft.undelay_covers htolerant arrived move.sourceUrgent).bind fun delayed hdelayed ↦ ?_
  refine (Draft.restrictAll_mem htolerant delayed fun constraint hmem ↦
    (hmove.source constraint hmem).tolerated may).bind fun waiting hwaiting ↦ ?_
  refine (Draft.finish_mem htolerant waiting).mono fun image himage ↦ ?_
  intro before ready after hafter hbefore hsource hwaits htarget hcommands
  have hready : ready ∈ undone := by
    refine hundone ready after ?_ (hwaits.keeps.2 hbefore) hcommands
    exact (Zone.mem_iff_admits zone after).mp hafter
  obtain ⟨duration, hduration, hurgent, rfl, -⟩ := hwaits
  have hlater := (harrived _).mpr ⟨hready, htarget⟩
  exact (himage before).mpr ((hwaiting before).mpr
    ⟨hdelayed before duration hbefore hduration hurgent hlater, hsource⟩)

end Move

namespace Automaton

variable {automaton : Automaton}

theorem WellFormed.moveWithin (hwell : automaton.WellFormed) {edge : EdgeId} {move : Move}
    (hmove : automaton.move edge = .ok move) : move.Within automaton.clocks := by
  obtain ⟨origin, horigin, -, hof⟩ := moveOf_of_move hwell hmove
  obtain ⟨source, hsource, hsourceInvariants, -⟩ := hof.sourcePlace
  obtain ⟨target, htarget, htargetInvariants⟩ := hof.targetPlace
  constructor
  · rw [hsourceInvariants]
    exact hwell.invariants source (place_mem hsource)
  · rw [hof.commands]
    exact hwell.commands origin horigin
  · rw [htargetInvariants]
    exact hwell.invariants target (place_mem htarget)

/-- The image before a move of guards and resets contains an allowed valuation that has a step into
the zone, if every invariant of the target is true before the commands run or names no clock that
they reset. No fault other than an excess of constants arises. -/
theorem mem_pre_of_step {draft : AutomatonDraft} (hbuild : draft.build = .ok automaton)
    {edge : EdgeId} {move : Move} (hmove : automaton.move edge = .ok move)
    (hreversible : move.isReversible = true) (zone : Zone) {before ready after : Valuation}
    (hbefore : automaton.Allows move.source before)
    (hwaits : before.Waits ready move.sourceUrgent move.sourceInvariants)
    (hcommands : Command.LeadAll move.commands ready after)
    (hafter : after.Satisfies move.targetInvariants) (hmem : after ∈ zone)
    (hkept : ∀ constraint ∈ move.targetInvariants,
      constraint.holds ready = .ok true ∨ move.Spares constraint) :
    Yields Fault.IsExcess (move.pre zone) (before ∈ ·) := by
  have hwell := AutomatonDraft.wellFormed_of_build hbuild
  obtain ⟨hsize, hsign, source, hsource, hinvariants⟩ := hbefore
  have hclocks : automaton.clocks = zone.clocks := by
    rw [← Zone.clocks_of_mem hmem, hcommands.keeps.1, hwaits.keeps.1, hsize]
  obtain ⟨origin, -, -, hof⟩ := moveOf_of_move hwell hmove
  obtain ⟨place, hplace, hsourceInvariants, -⟩ := hof.sourcePlace
  have hhere : before.Satisfies move.sourceInvariants := by
    rw [hof.source, hplace] at hsource
    obtain rfl := Except.ok.inj hsource
    rwa [hsourceInvariants]
  have htarget : ready.Satisfies move.targetInvariants := by
    intro constraint hconstraint
    rcases hkept constraint hconstraint with hholds | hspares
    · exact hholds
    · rw [hcommands.holds_eq (List.all_eq_true.mp hreversible) hspares]
      exact hafter constraint hconstraint
  refine (Move.pre_covers lenient_isExcess (hclocks ▸ hwell.moveWithin hmove) hreversible).mono ?_
  intro image himage
  exact himage before ready after hmem hsign hhere hwaits htarget hcommands

/-! ### A wicket -/

/-- A wicket whose first clock is reset when it opens, and that stays open while a clock is at most
one. -/
def wicket (bounded : Clock) : AutomatonDraft where
  clockNames := ["x", "y"]
  locations := [("shut", false), ("open", false)]
  invariants := [(⟨1⟩, .compare bounded none .atMost 1)]
  edges := [(⟨0⟩, ⟨1⟩, [.reset ⟨1, Nat.one_pos⟩ 0])]
  initial := some ⟨0⟩

def wicketAutomaton (bounded : Clock) : Automaton where
  clockNames := ["x", "y"]
  places := [⟨"shut", false, []⟩, ⟨"open", false, [.compare bounded none .atMost 1]⟩]
  edges := [⟨⟨0⟩, ⟨0⟩, ⟨1⟩, [.reset ⟨1, Nat.one_pos⟩ 0]⟩]
  initial := ⟨0⟩
  errors := []

/-- The move that opens the wicket. -/
def wicketMove (bounded : Clock) : Move where
  edge := ⟨0⟩
  source := ⟨0⟩
  target := ⟨1⟩
  commands := [.reset ⟨1, Nat.one_pos⟩ 0]
  sourceInvariants := []
  targetInvariants := [.compare bounded none .atMost 1]
  sourceUrgent := false

theorem move_wicketAutomaton (bounded : Clock) :
    (wicketAutomaton bounded).move ⟨0⟩ = .ok (wicketMove bounded) := rfl

theorem wicket_allows (bounded : Clock) :
    (wicketAutomaton bounded).Allows ⟨0⟩ ⟨[5, 0]⟩ := by
  refine ⟨rfl, ?_, ⟨"shut", false, []⟩, rfl, by simp [Valuation.Satisfies]⟩
  simp [Valuation.NonNegative]

theorem wicket_waits (bounded : Clock) : (⟨[5, 0]⟩ : Valuation).Waits ⟨[6, 1]⟩
    (wicketMove bounded).sourceUrgent (wicketMove bounded).sourceInvariants := by
  refine ⟨1, by decide, nofun, by decide +kernel, ?_⟩
  simp [Valuation.Satisfies, wicketMove]

theorem wicket_leadAll (bounded : Clock) :
    Command.LeadAll (wicketMove bounded).commands ⟨[6, 1]⟩ ⟨[0, 1]⟩ :=
  .next (show Command.apply _ _ = _ by decide) (.done _)

/-- A wicket that stays open by its second clock: the image before its opening, from everything,
holds what the step starts from. -/
theorem mem_pre_wicket : ∃ image,
    (wicket ⟨2, Nat.two_pos⟩).build = .ok (wicketAutomaton ⟨2, Nat.two_pos⟩) ∧
    (wicketMove ⟨2, Nat.two_pos⟩).Leads ⟨[5, 0]⟩ ⟨[0, 1]⟩ ∧ ⟨[0, 1]⟩ ∈ Zone.top 2 ∧
    (wicketMove ⟨2, Nat.two_pos⟩).pre (Zone.top 2) = .ok image ∧ ⟨[5, 0]⟩ ∈ image := by
  have hbuild : (wicket ⟨2, Nat.two_pos⟩).build = .ok (wicketAutomaton ⟨2, Nat.two_pos⟩) := by
    decide +kernel
  have hafter : (⟨[0, 1]⟩ : Valuation).Satisfies
      (wicketMove ⟨2, Nat.two_pos⟩).targetInvariants := by
    simp only [Valuation.Satisfies, wicketMove, List.forall_mem_singleton]
    decide
  have hmem : (⟨[0, 1]⟩ : Valuation) ∈ Zone.top 2 := by
    change Zone.contains _ _ = _
    decide +kernel
  have hspares : ∀ constraint ∈ (wicketMove ⟨2, Nat.two_pos⟩).targetInvariants,
      constraint.holds ⟨[6, 1]⟩ = .ok true ∨
        (wicketMove ⟨2, Nat.two_pos⟩).Spares constraint := by
    simp only [wicketMove, List.forall_mem_singleton]
    refine Or.inr ?_
    simp [Move.Spares, Constraint.clocks]
  have hpre : (wicketMove ⟨2, Nat.two_pos⟩).pre (Zone.top 2) = .ok ⟨2, ⟨#v[
      #v[.atMost 0, .atMost 0, .atMost 0], #v[.infinite, .atMost 0, .infinite],
      #v[.atMost 1, .atMost 1, .atMost 0]]⟩⟩ := by
    decide +kernel
  have hcontains := mem_pre_of_step hbuild (move_wicketAutomaton _) rfl (Zone.top 2)
    (wicket_allows _) (wicket_waits _) (wicket_leadAll _) hafter hmem hspares
  exact ⟨_, hbuild, ⟨_, wicket_waits _, wicket_leadAll _, hafter⟩, hmem, hpre,
    hcontains.result hpre⟩

/-- A wicket that stays open by the clock it resets: a step leads into the zone, and yet the image
before it does not hold what the step starts from. -/
theorem not_mem_pre_wicket : ∃ image,
    (wicket ⟨1, Nat.one_pos⟩).build = .ok (wicketAutomaton ⟨1, Nat.one_pos⟩) ∧
    (wicketAutomaton ⟨1, Nat.one_pos⟩).move ⟨0⟩ = .ok (wicketMove ⟨1, Nat.one_pos⟩) ∧
    (wicketMove ⟨1, Nat.one_pos⟩).isReversible = true ∧
    (wicketAutomaton ⟨1, Nat.one_pos⟩).Allows (wicketMove ⟨1, Nat.one_pos⟩).source ⟨[5, 0]⟩ ∧
    (wicketMove ⟨1, Nat.one_pos⟩).Leads ⟨[5, 0]⟩ ⟨[0, 1]⟩ ∧ ⟨[0, 1]⟩ ∈ Zone.top 2 ∧
    (wicketMove ⟨1, Nat.one_pos⟩).pre (Zone.top 2) = .ok image ∧ ⟨[5, 0]⟩ ∉ image := by
  have hafter : (⟨[0, 1]⟩ : Valuation).Satisfies
      (wicketMove ⟨1, Nat.one_pos⟩).targetInvariants := by
    simp only [Valuation.Satisfies, wicketMove, List.forall_mem_singleton]
    decide
  refine ⟨⟨2, ⟨#v[#v[.atMost 0, .atMost 0, .atMost 0], #v[.atMost 1, .atMost 0, .atMost 1],
    #v[.infinite, .infinite, .atMost 0]]⟩⟩, by decide +kernel, rfl, rfl, wicket_allows _,
    ⟨_, wicket_waits _, wicket_leadAll _, hafter⟩, ?_, by decide +kernel, ?_⟩
  · change Zone.contains _ _ = _
    decide +kernel
  · change ¬ Zone.contains _ _ = _
    decide +kernel

end Automaton

end TimedSafety
