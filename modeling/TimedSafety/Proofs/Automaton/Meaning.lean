import TimedSafety.Automaton.Run
import TimedSafety.Proofs.Automaton.WellFormed

/-!
The parts of a well-formed automaton, as sets and relations on valuations: the invariant zone of a
location holds what it allows, the initial zone what a run can start with, the approach of an error
what can wait into it, and the move of an edge has an exact image. A move leads from allowed
valuations to allowed ones.
-/

set_option autoImplicit false

namespace TimedSafety

/-! ### What steps keep -/

namespace Valuation

theorem set_keeps {before after : Valuation} {clock : Clock} {value : Rat}
    (hset : before.set clock value = .ok after) :
    after.clocks = before.clocks ∧ (before.NonNegative → after.NonNegative) := by
  unfold set at hset
  split_ifs at hset with hnegative
  obtain rfl := Except.ok.inj hset
  refine ⟨by simp [clocks], fun hbefore other hother ↦ ?_⟩
  rcases List.mem_or_eq_of_mem_set hother with hold | rfl
  · exact hbefore other hold
  · exact not_lt.mp hnegative

theorem Waits.keeps {before after : Valuation} {urgent : Bool} {invariants : List Constraint}
    (hwaits : before.Waits after urgent invariants) :
    after.clocks = before.clocks ∧ (before.NonNegative → after.NonNegative) := by
  obtain ⟨duration, hduration, -, rfl, -⟩ := hwaits
  exact ⟨clocks_later _ _, fun hbefore ↦ hbefore.later hduration⟩

end Valuation

namespace Command

/-- A command keeps the number of clocks, and never leads below zero. -/
theorem Leads.keeps {command : Command} {before after : Valuation}
    (hleads : command.Leads before after) :
    after.clocks = before.clocks ∧ (before.NonNegative → after.NonNegative) := by
  have hwritten : ∀ {clock : Clock} {value : Rat},
      (do let written ← before.set clock value
          return some written : Except Fault (Option Valuation)) = .ok (some after) →
      after.clocks = before.clocks ∧ (before.NonNegative → after.NonNegative) := by
    intro clock value hsome
    cases hset : before.set clock value with
    | error fault => simp [hset, bind, Except.bind] at hsome
    | ok written =>
      obtain rfl : written = after := by
        simpa [hset, bind, Except.bind, pure, Except.pure] using hsome
      exact Valuation.set_keeps hset
  cases command with
  | reset clock value => exact hwritten hleads
  | guard constraint =>
    obtain ⟨-, rfl⟩ := leads_guard_iff.mp hleads
    exact ⟨rfl, fun hbefore ↦ hbefore⟩
  | copy clock source =>
    simp only [Leads, apply] at hleads
    cases hget : before.get source with
    | error fault => simp [hget, bind, Except.bind] at hleads
    | ok value =>
      rw [hget] at hleads
      exact hwritten hleads
  | shift clock offset =>
    simp only [Leads, apply] at hleads
    cases hget : before.get clock with
    | error fault => simp [hget, bind, Except.bind] at hleads
    | ok value =>
      rw [hget] at hleads
      by_cases hnegative : value + offset < 0
      · simp [bind, Except.bind, pure, Except.pure, hnegative] at hleads
      · simp only [bind, Except.bind, if_neg hnegative] at hleads
        exact hwritten hleads
  | free clock =>
    obtain ⟨value, -, hset⟩ := hleads
    exact Valuation.set_keeps hset

theorem LeadAll.keeps {commands : List Command} {before after : Valuation}
    (hleads : LeadAll commands before after) :
    after.clocks = before.clocks ∧ (before.NonNegative → after.NonNegative) := by
  induction hleads with
  | done valuation => exact ⟨rfl, fun hbefore ↦ hbefore⟩
  | next hfirst _ ih =>
    exact ⟨ih.1.trans hfirst.keeps.1, fun hbefore ↦ ih.2 (hfirst.keeps.2 hbefore)⟩

end Command

theorem Move.Leads.keeps {move : Move} {before after : Valuation}
    (hleads : move.Leads before after) :
    after.clocks = before.clocks ∧ (before.NonNegative → after.NonNegative) := by
  obtain ⟨ready, hwaits, hcommands, -⟩ := hleads
  exact ⟨hcommands.keeps.1.trans hwaits.keeps.1,
    fun hbefore ↦ hcommands.keeps.2 (hwaits.keeps.2 hbefore)⟩

namespace Automaton

variable {may : Fault → Prop} {automaton : Automaton} {location : Location}

/-! ### Locations -/

theorem place_eq_ok_iff {place : Place} :
    automaton.place location = .ok place ↔ automaton.places[location.index]? = some place := by
  unfold Automaton.place
  cases automaton.places[location.index]? <;> simp

theorem exists_place (hlocation : location.index < automaton.places.length) :
    ∃ place ∈ automaton.places, automaton.place location = .ok place :=
  ⟨automaton.places[location.index], List.getElem_mem hlocation,
    place_eq_ok_iff.mpr (List.getElem?_eq_getElem hlocation)⟩

theorem place_mem {place : Place} (hplace : automaton.place location = .ok place) :
    place ∈ automaton.places :=
  List.mem_of_getElem? (place_eq_ok_iff.mp hplace)

theorem mem_locations_iff :
    location ∈ automaton.locations ↔ location.index < automaton.places.length := by
  constructor
  · intro hmem
    obtain ⟨index, hindex, rfl⟩ := List.mem_map.mp hmem
    exact List.mem_range.mp hindex
  · intro hlocation
    exact List.mem_map.mpr ⟨location.index, List.mem_range.mpr hlocation, rfl⟩

/-- Some place is known for a location that allows anything. -/
theorem Allows.mem_locations {valuation : Valuation}
    (hallows : automaton.Allows location valuation) : location ∈ automaton.locations := by
  obtain ⟨-, -, place, hplace, -⟩ := hallows
  exact mem_locations_iff.mpr (List.getElem?_eq_some_iff.mp (place_eq_ok_iff.mp hplace)).1

theorem invariantZone_yields (hmay : Tolerant may) (hwell : automaton.WellFormed)
    (hlocation : location ∈ automaton.locations) :
    Yields may (automaton.invariantZone location)
      (·.Denotes automaton.clocks (automaton.Allows location)) := by
  obtain ⟨place, hmem, hplace⟩ := exists_place (mem_locations_iff.mp hlocation)
  rw [invariantZone, hplace]
  refine (Zone.restrictAll_yields hmay (Zone.denotes_top automaton.clocks)
    fun constraint hconstraint ↦
      (hwell.invariants place hmem constraint hconstraint).tolerated may).mono
    fun allowed hallowed ↦ hallowed.congr fun valuation ↦ ?_
  constructor
  · rintro ⟨⟨hclocks, hsign⟩, hsatisfies⟩
    exact ⟨hclocks, hsign, place, hplace, hsatisfies⟩
  · rintro ⟨hclocks, hsign, other, hother, hsatisfies⟩
    obtain rfl : place = other := Except.ok.inj (hplace.symm.trans hother)
    exact ⟨⟨hclocks, hsign⟩, hsatisfies⟩

theorem WellFormed.initial_mem (hwell : automaton.WellFormed) :
    automaton.initial ∈ automaton.locations := mem_locations_iff.mpr hwell.initial

/-- The valuation with which a run can start. -/
def Starts (automaton : Automaton) (valuation : Valuation) : Prop :=
  valuation = .zero automaton.clocks ∧ automaton.Allows automaton.initial valuation

theorem nonNegative_zero (clocks : Nat) : (Valuation.zero clocks).NonNegative := by
  intro value hvalue
  rw [List.eq_of_mem_replicate hvalue]

/-- A run can start with a valuation just if there is one that has. -/
theorem starts_iff {valuation : Valuation} :
    automaton.Starts valuation ↔ automaton.Run [] ⟨automaton.initial, valuation⟩ := by
  constructor
  · rintro ⟨rfl, -, -, place, hplace, hsatisfies⟩
    exact .start hplace hsatisfies
  · intro hrun
    generalize hnil : ([] : List (Configuration × EdgeId)) = taken at hrun
    generalize hhere : Configuration.mk automaton.initial valuation = here at hrun
    cases hrun with
    | start hplace hallowed =>
      obtain rfl : valuation = .zero automaton.clocks := congrArg Configuration.valuation hhere
      exact ⟨rfl, Valuation.clocks_zero _, nonNegative_zero _, _, hplace, hallowed⟩
    | step => simp at hnil

theorem initialZone_yields (hmay : Tolerant may) (hwell : automaton.WellFormed) :
    Yields may automaton.initialZone (·.Denotes automaton.clocks automaton.Starts) := by
  refine (invariantZone_yields hmay hwell hwell.initial_mem).bind fun allowed hallowed ↦ ?_
  exact Zone.meet_yields hmay (Zone.denotes_zero automaton.clocks) hallowed

/-! ### Moves -/

/-- The move is made of the edge and the places at its ends. -/
structure MoveOf (automaton : Automaton) (edge : Edge) (move : Move) : Prop where
  source : move.source = edge.source
  target : move.target = edge.target
  commands : move.commands = edge.commands
  sourcePlace : ∃ place, automaton.place edge.source = .ok place ∧
    move.sourceInvariants = place.invariants ∧ move.sourceUrgent = place.urgent
  targetPlace : ∃ place, automaton.place edge.target = .ok place ∧
    move.targetInvariants = place.invariants

theorem exists_move (hwell : automaton.WellFormed) {edge : Edge} (hedge : edge ∈ automaton.edges) :
    ∃ move, automaton.move edge.id = .ok move ∧ automaton.MoveOf edge move := by
  obtain ⟨index, hindex⟩ := List.getElem?_of_mem hedge
  obtain ⟨source, -, hsource⟩ := exists_place (hwell.source edge hedge)
  obtain ⟨target, -, htarget⟩ := exists_place (hwell.target edge hedge)
  rw [hwell.numbered index edge hindex]
  have hmove : automaton.move ⟨index⟩ = .ok ⟨⟨index⟩, edge.source, edge.target, edge.commands,
      source.invariants, target.invariants, source.urgent⟩ := by
    simp only [move, hindex, hsource, htarget]
    rfl
  exact ⟨_, hmove, rfl, rfl, rfl, ⟨source, hsource, rfl, rfl⟩, ⟨target, htarget, rfl⟩⟩

/-- A move that is found belongs to an edge of that number. -/
theorem moveOf_of_move (hwell : automaton.WellFormed) {id : EdgeId} {move : Move}
    (hmove : automaton.move id = .ok move) :
    ∃ edge ∈ automaton.edges, edge.id = id ∧ automaton.MoveOf edge move := by
  cases hindex : automaton.edges[id.index]? with
  | none => simp [Automaton.move, hindex] at hmove
  | some edge =>
    have hmem := List.mem_of_getElem? hindex
    have hid := hwell.numbered id.index edge hindex
    obtain ⟨other, hother, hof⟩ := exists_move hwell hmem
    rw [hid] at hother
    obtain rfl : other = move := Except.ok.inj (hother.symm.trans hmove)
    exact ⟨edge, hmem, hid, hof⟩

/-- All resets are to values that are not negative. -/
def ResetsNonNegative (automaton : Automaton) : Prop :=
  ∀ edge ∈ automaton.edges, ∀ command ∈ edge.commands, command.KeepsNonNegative

instance (automaton : Automaton) : Decidable automaton.ResetsNonNegative :=
  inferInstanceAs (Decidable (∀ edge ∈ automaton.edges, ∀ command ∈ edge.commands,
    command.KeepsNonNegative))

/-- The constants of all commands are in range. -/
def ConstantsInRange (automaton : Automaton) : Prop :=
  ∀ edge ∈ automaton.edges, ∀ command ∈ edge.commands, ∀ value ∈ command.constant?,
    -maxConstant ≤ value ∧ value ≤ maxConstant

/-- The automaton is well formed, its resets are not negative, and the faults for constants of its
commands that are out of range are admitted. -/
structure Tolerated (may : Fault → Prop) (automaton : Automaton) : Prop where
  wellFormed : automaton.WellFormed
  nonNegative : automaton.ResetsNonNegative
  constants : ∀ edge ∈ automaton.edges, ∀ command ∈ edge.commands, ∀ value ∈ command.constant?,
    ¬ (-maxConstant ≤ value ∧ value ≤ maxConstant) →
      may (.constantOutOfRange value command.text)

theorem WellFormed.tolerated_true (hwell : automaton.WellFormed)
    (hresets : automaton.ResetsNonNegative) : automaton.Tolerated fun _ ↦ True :=
  ⟨hwell, hresets, fun _ _ _ _ _ _ _ ↦ trivial⟩

theorem ConstantsInRange.move (hrange : automaton.ConstantsInRange) (hwell : automaton.WellFormed)
    {id : EdgeId} {move : Move} (hmove : automaton.move id = .ok move) :
    ∀ command ∈ move.commands, ∀ value ∈ command.constant?,
      -maxConstant ≤ value ∧ value ≤ maxConstant := by
  obtain ⟨edge, hedge, -, hof⟩ := moveOf_of_move hwell hmove
  rw [hof.commands]
  exact hrange edge hedge

/-- The only faults that a move can cause are those for constants of its commands. -/
theorem WellFormed.move_tolerated (hwell : automaton.WellFormed)
    (hresets : automaton.ResetsNonNegative) {id : EdgeId} {move : Move}
    (hmove : automaton.move id = .ok move)
    (hconstants : ∀ command ∈ move.commands, ∀ value ∈ command.constant?,
      ¬ (-maxConstant ≤ value ∧ value ≤ maxConstant) →
        may (.constantOutOfRange value command.text)) :
    move.Tolerated may automaton.clocks := by
  obtain ⟨edge, hedge, -, hof⟩ := moveOf_of_move hwell hmove
  obtain ⟨source, hsource, hsourceInvariants, -⟩ := hof.sourcePlace
  obtain ⟨target, htarget, htargetInvariants⟩ := hof.targetPlace
  refine ⟨?_, ?_, ?_⟩
  · rw [hsourceInvariants]
    exact fun constraint hmem ↦
      (hwell.invariants source (place_mem hsource) constraint hmem).tolerated may
  · intro command hmem
    have hdeclared : command ∈ edge.commands := hof.commands ▸ hmem
    refine ⟨fun clock hclock hrange ↦ ?_, hconstants command hmem, hresets edge hedge command
      hdeclared⟩
    exact absurd (hwell.commands edge hedge command hdeclared clock hclock) (not_le.mpr hrange)
  · rw [htargetInvariants]
    exact fun constraint hmem ↦
      (hwell.invariants target (place_mem htarget) constraint hmem).tolerated may

theorem Tolerated.move (htolerated : automaton.Tolerated may) {id : EdgeId} {move : Move}
    (hmove : automaton.move id = .ok move) : move.Tolerated may automaton.clocks := by
  obtain ⟨edge, hedge, -, hof⟩ := moveOf_of_move htolerated.wellFormed hmove
  refine htolerated.wellFormed.move_tolerated htolerated.nonNegative hmove ?_
  rw [hof.commands]
  exact htolerated.constants edge hedge

/-- A move leads to valuations that its target allows. -/
theorem allows_of_leads (hwell : automaton.WellFormed) {id : EdgeId} {move : Move}
    (hmove : automaton.move id = .ok move) {before after : Valuation}
    (hbefore : automaton.Allows location before) (hleads : move.Leads before after) :
    automaton.Allows move.target after := by
  obtain ⟨edge, -, -, hof⟩ := moveOf_of_move hwell hmove
  obtain ⟨target, htarget, hinvariants⟩ := hof.targetPlace
  obtain ⟨hclocks, hsign⟩ := hleads.keeps
  obtain ⟨-, -, -, hsatisfies⟩ := hleads
  refine ⟨hclocks.trans hbefore.1, hsign hbefore.2.1, target, ?_, ?_⟩
  · rw [hof.target, htarget]
  · rwa [← hinvariants]

/-- The move at an end of a run stays within what locations allow. -/
theorem Run.allows (hwell : automaton.WellFormed) {taken : List (Configuration × EdgeId)}
    {here : Configuration} (hrun : automaton.Run taken here) :
    automaton.Allows here.location here.valuation := by
  induction hrun with
  | start hplace hallowed =>
    exact ⟨Valuation.clocks_zero _, nonNegative_zero _, _, hplace, hallowed⟩
  | step _ hmove _ hleads ih => exact allows_of_leads hwell hmove ih hleads

/-! ### Errors -/

theorem error?_mem {condition : ErrorCondition}
    (herror : automaton.error? location = some condition) :
    condition ∈ automaton.errors ∧ condition.location = location := by
  refine ⟨List.mem_of_find?_eq_some herror, ?_⟩
  simpa using List.find?_some herror

/-- Failing is waiting into the error zone of the location. -/
theorem fails_iff {place : Place} {condition : ErrorCondition}
    (hplace : automaton.place location = .ok place)
    (herror : automaton.error? location = some condition) {valuation final : Valuation} :
    automaton.Fails ⟨location, valuation⟩ final ↔
      valuation.Waits final place.urgent place.invariants ∧ final ∈ condition.zone := by
  constructor
  · rintro ⟨other, found, hother, hfound, hwaits, hfinal⟩
    obtain rfl : place = other := Except.ok.inj (hplace.symm.trans hother)
    obtain rfl : condition = found := Option.some.inj (herror.symm.trans hfound)
    exact ⟨hwaits, hfinal⟩
  · rintro ⟨hwaits, hfinal⟩
    exact ⟨place, condition, hplace, herror, hwaits, hfinal⟩

/-- The approach of an error holds the allowed valuations that can fail. -/
theorem approach_denotes (hwell : automaton.WellFormed) {condition : ErrorCondition}
    (herror : automaton.error? location = some condition) :
    condition.approach.Denotes automaton.clocks fun valuation ↦
      automaton.Allows location valuation ∧
        ∃ final, automaton.Fails ⟨location, valuation⟩ final := by
  obtain ⟨hmem, rfl⟩ := error?_mem herror
  obtain ⟨place, hplace, happroach⟩ := (hwell.errors condition hmem).approach
  exact happroach.congr fun valuation ↦ and_congr_right fun _ ↦ exists_congr fun final ↦
    (fails_iff hplace herror).symm

theorem error_zone_denotes (hwell : automaton.WellFormed) {condition : ErrorCondition}
    (herror : automaton.error? location = some condition) :
    condition.zone.Denotes automaton.clocks (· ∈ condition.zone) := by
  have hexact := hwell.errors condition (error?_mem herror).1
  exact ⟨hexact.zone_clocks, hexact.zone_canonical, fun _ ↦ Iff.rfl⟩

/-- Where no error is declared, nothing fails. -/
theorem not_fails {valuation final : Valuation} (herror : automaton.error? location = none) :
    ¬ automaton.Fails ⟨location, valuation⟩ final := by
  rintro ⟨place, condition, -, hcondition, -⟩
  rw [herror] at hcondition
  contradiction

end Automaton

end TimedSafety
