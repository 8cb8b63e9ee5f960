import TimedSafety.Graph.Basic
import TimedSafety.Proofs.Automaton.Level
import TimedSafety.Proofs.Automaton.Successor

/-!
States from which waiting leads into an error. An error is declared by constraints on a location.
Building turns them into a zone and into its approach, by restricting, going back in time and
restricting again; a state is an error state if its zone meets the approach; and a counterexample is
found by letting time pass from there. All three are about the same waits: those within the
invariants at every moment, from a valuation of the state to one where the constraints hold
(`AutomatonDraft.errorStates_exact`). Overflow is the exception, and a state where nothing threatens
may be met by it (`AbstractGraph.ring_check_overflows`).
-/

set_option autoImplicit false

namespace TimedSafety

/-- Waiting at the place can lead from the valuation to where the constraints hold, and the
invariants hold at every moment until then. -/
def Valuation.Threatens (valuation : Valuation) (place : Place) (constraints : List Constraint) :
    Prop :=
  valuation.NonNegative ∧ valuation.Satisfies place.invariants ∧
    ∃ final, valuation.Dwells final place.urgent place.invariants ∧ final.Satisfies constraints

theorem Valuation.Threatens.exists_waits {valuation : Valuation} {place : Place}
    {constraints : List Constraint} (hthreatens : valuation.Threatens place constraints) :
    ∃ final : Valuation, valuation.Waits final place.urgent place.invariants ∧
      final.clocks = valuation.clocks ∧ final.NonNegative ∧ final.Satisfies constraints := by
  obtain ⟨hsign, hsatisfies, final, hdwells, hfinal⟩ := hthreatens
  have hwaits := (Valuation.dwells_iff_waits hsatisfies).mp hdwells
  obtain ⟨duration, hduration, -, rfl, -⟩ := id hwaits
  exact ⟨_, hwaits, Valuation.clocks_later valuation duration, hsign.later hduration, hfinal⟩

/-- The error condition of a location, with the constraints that it was declared by. -/
structure Automaton.ErrorAt (automaton : Automaton) (location : Location)
    (constraints : List Constraint) (place : Place) (condition : ErrorCondition) : Prop where
  place_eq : automaton.place location = .ok place
  error_eq : automaton.error? location = some condition
  zone : condition.zone.Denotes automaton.clocks fun valuation ↦
    (valuation.clocks = automaton.clocks ∧ valuation.NonNegative) ∧
      valuation.Satisfies constraints
  approach : condition.approach.Denotes automaton.clocks fun valuation ↦
    valuation.clocks = automaton.clocks ∧ valuation.Threatens place constraints

namespace AutomatonDraft

variable {draft : AutomatonDraft} {automaton : Automaton}

/-! ### Errors as they were declared -/

/-- The first condition for a location is the one made of the first entry for it. -/
theorem exists_find?_of_related {entries : List (Location × List Constraint)}
    {conditions : List ErrorCondition}
    (hrelated : List.Forall₂ (fun entry condition ↦ draft.Declares entry.1 entry.2 condition)
      entries conditions)
    {location : Location} {constraints : List Constraint}
    (hentry : PrecisionTable.explicit? entries location = some constraints) :
    ∃ condition, conditions.find? (fun condition ↦ condition.location = location) =
      some condition ∧ draft.Declares location constraints condition := by
  induction hrelated with
  | nil => cases hentry
  | @cons entry condition entries conditions hdeclares hrest ih =>
    have hlocation := hdeclares.location_eq
    rw [PrecisionTable.explicit?_cons] at hentry
    by_cases hsame : location = entry.1
    · rw [if_pos hsame] at hentry
      obtain rfl := Option.some.inj hentry
      subst hsame
      exact ⟨condition, List.find?_cons_of_pos (by simpa using hlocation), hdeclares⟩
    · rw [if_neg hsame] at hentry
      obtain ⟨found, hfound, hdeclares⟩ := ih hentry
      refine ⟨found, ?_, hdeclares⟩
      rw [List.find?_cons_of_neg (by simpa [hlocation] using Ne.symm hsame), hfound]

/-- The error condition of a location in the automaton is the one that was declared last. -/
theorem exists_errorAt (hbuild : draft.build = .ok automaton) {location : Location}
    {constraints : List Constraint} (hlast : draft.lastError? location = some constraints) :
    ∃ place condition, automaton.ErrorAt location constraints place condition := by
  have hassembles := assembles_of_build hbuild
  have hclocks : draft.clockNames.length = automaton.clocks := by
    rw [Automaton.clocks, hassembles.clockNames]
  obtain ⟨condition, herror, hdeclares⟩ := exists_find?_of_related hassembles.errors
    ((explicit?_effectiveErrors draft location).trans hlast)
  have hzone := hdeclares.zone
  obtain ⟨place, hplace, happroach⟩ := hdeclares.approach
  rw [hclocks] at hzone happroach
  have hfound : automaton.place location = .ok place := by
    rw [Automaton.place, hassembles.places, hplace]
  refine ⟨place, condition, hfound, herror, hzone, happroach.clocks_eq, happroach.canonical,
    fun valuation ↦ ?_⟩
  constructor
  · intro hmem
    obtain ⟨hsign, hsatisfies, final, hwaits, hfinal⟩ := (happroach.mem_iff valuation).mp hmem
    exact ⟨(Zone.clocks_of_mem hmem).trans happroach.clocks_eq, hsign, hsatisfies, final,
      (Valuation.dwells_iff_waits hsatisfies).mpr hwaits, ((hzone.mem_iff final).mp hfinal).2⟩
  · rintro ⟨hsize, hthreatens⟩
    obtain ⟨final, hwaits, hfinalSize, hsign, hfinal⟩ := hthreatens.exists_waits
    exact (happroach.mem_iff valuation).mpr ⟨hthreatens.1, hthreatens.2.1, final, hwaits,
      (hzone.mem_iff final).mpr ⟨⟨hfinalSize.trans hsize, hsign⟩, hfinal⟩⟩

end AutomatonDraft

/-! ### Error states -/

namespace Automaton.ErrorAt

variable {may : Fault → Prop} {automaton : Automaton} {location : Location}
variable {constraints : List Constraint} {place : Place} {condition : ErrorCondition}

/-- A zone meets the approach if it has a valuation that can wait into the error. -/
theorem meets_yields (herror : automaton.ErrorAt location constraints place condition)
    (hmay : Tolerant may) {zone : Zone} (hzone : zone.Composed automaton.clocks) :
    Yields may (zone.meets condition.approach) fun answer ↦
      (answer = true ↔ ∃ valuation ∈ zone, valuation.Threatens place constraints) := by
  obtain ⟨hclocks, hlevel⟩ := hzone.level
  refine (Zone.meets_level hmay hclocks hlevel herror.approach).mono fun answer hanswer ↦ ?_
  rw [hanswer]
  refine exists_congr fun valuation ↦ and_congr_right fun hmem ↦ and_iff_right ?_
  exact (Zone.clocks_of_mem hmem).trans hclocks

/-- From where a zone meets the approach, letting time pass leads into the error zone. -/
theorem elapse_meets (herror : automaton.ErrorAt location constraints place condition)
    (hmay : Tolerant may) (hwell : automaton.WellFormed) {zone : Zone}
    (hzone : zone.Composed automaton.clocks) (hmeets : zone.meets condition.approach = .ok true) :
    Yields may (do
      let doomed ← zone.meet condition.approach
      let waited ← doomed.elapse place.urgent place.invariants
      waited.meets condition.zone) (· = true) := by
  obtain ⟨hclocks, hlevel⟩ := hzone.level
  obtain ⟨valuation, hmem, hthreatens⟩ :=
    ((herror.meets_yields tolerant_true hzone).result hmeets).mp rfl
  have hwithin := hwell.invariants place (Automaton.place_mem herror.place_eq)
  refine (Zone.meet_level hmay hclocks hlevel herror.approach).bind fun doomed hdoomed ↦ ?_
  refine (Zone.elapse_yields hmay hdoomed place.urgent fun constraint hconstraint ↦
    (hwithin constraint hconstraint).tolerated may).bind fun waited hwaited ↦ ?_
  refine (Zone.meets_yields hmay hwaited herror.zone).mono fun answer hanswer ↦ hanswer.mpr ?_
  have hover := (Zone.clocks_of_mem hmem).trans hclocks
  obtain ⟨final, hwaits, hsize, hsign, hfinal⟩ := hthreatens.exists_waits
  exact ⟨final, ⟨valuation, ⟨hmem, hover, hthreatens⟩, hwaits⟩,
    ⟨hsize.trans hover, hsign⟩, hfinal⟩

/-- A state at the location is an error state if it has a valuation that can wait into the error. -/
theorem isErrorState_yields {graph : AbstractGraph}
    (herror : graph.automaton.ErrorAt location constraints place condition)
    (hmay : Tolerant may) {id : StateId} {state : AbstractState}
    (hstate : graph.state? id = some state) (hlocation : state.location = location)
    (hzone : state.zone.Composed graph.automaton.clocks) :
    Yields may (graph.isErrorState id) fun answer ↦
      (answer = true ↔ ∃ valuation ∈ state.zone, valuation.Threatens place constraints) := by
  unfold AbstractGraph.isErrorState
  rw [hstate]
  dsimp only
  rw [hlocation, herror.error_eq]
  exact herror.meets_yields hmay hzone

end Automaton.ErrorAt

/-- Where an error was declared for a location, its approach holds just the valuations that can wait
into the error. A state at the location is an error state if its zone holds such a valuation, and a
zone that meets the approach gets from there into the error zone when time passes. Nothing fails but
by overflow, and zones may be made by any operations, negative resets included. -/
theorem AutomatonDraft.errorStates_exact {draft : AutomatonDraft} {automaton : Automaton}
    (hbuild : draft.build = .ok automaton) {location : Location} {constraints : List Constraint}
    (hlast : draft.lastError? location = some constraints) :
    ∃ place condition, automaton.place location = .ok place ∧
      automaton.error? location = some condition ∧
      (∀ valuation, valuation ∈ condition.approach ↔
        valuation.clocks = automaton.clocks ∧ valuation.Threatens place constraints) ∧
      (∀ (graph : AbstractGraph) (id : StateId) (state : AbstractState),
        graph.automaton = automaton → graph.state? id = some state → state.location = location →
        state.zone.Composed automaton.clocks →
          Yields Fault.IsOverflow (graph.isErrorState id) fun answer ↦
            (answer = true ↔ ∃ valuation ∈ state.zone, valuation.Threatens place constraints)) ∧
      ∀ zone : Zone, zone.Composed automaton.clocks →
        zone.meets condition.approach = .ok true →
          Yields Fault.IsOverflow (do
            let doomed ← zone.meet condition.approach
            let waited ← doomed.elapse place.urgent place.invariants
            waited.meets condition.zone) (· = true) := by
  obtain ⟨place, condition, herror⟩ := exists_errorAt hbuild hlast
  refine ⟨place, condition, herror.place_eq, herror.error_eq, herror.approach.mem_iff, ?_, ?_⟩
  · rintro graph id state rfl hstate hlocation hzone
    exact herror.isErrorState_yields tolerant_isOverflow hstate hlocation hzone
  · intro zone hzone hmeets
    exact herror.elapse_meets tolerant_isOverflow (wellFormed_of_build hbuild) hzone hmeets

/-! ### An alarm -/

/-- The zone of a single clock between two bounds. -/
def Zone.between (lower upper : Bound) : Zone where
  clocks := 1
  matrix := .tabulate fun i j ↦
    if i.val < j.val then lower else if j.val < i.val then upper else .zero

namespace AutomatonDraft

def untilAlarm : Zone := .between .zero (.atMost 30)

def afterAlarm : Zone := .between (.below (-30)) (.atMost 50)

/-- The alarm goes off. -/
def goesOff : Constraint := .compare ⟨1, Nat.one_pos⟩ none .equal 30

/-- An alarm that is armed for fifty time units. -/
def alarm : AutomatonDraft where
  clockNames := ["x"]
  locations := [("armed", false)]
  invariants := [(⟨0⟩, .compare ⟨1, Nat.one_pos⟩ none .atMost 50)]
  initial := some ⟨0⟩
  errors := [(⟨0⟩, [goesOff])]

def alarmAutomaton : Automaton where
  clockNames := ["x"]
  places := [⟨"armed", false, [.compare ⟨1, Nat.one_pos⟩ none .atMost 50]⟩]
  edges := []
  initial := ⟨0⟩
  errors := [⟨⟨0⟩, .between (.atMost (-30)) (.atMost 30), untilAlarm⟩]

def alarmGraph : AbstractGraph where
  automaton := alarmAutomaton
  states := [⟨⟨0⟩, ⟨0⟩, untilAlarm, true, false⟩, ⟨⟨1⟩, ⟨0⟩, afterAlarm, false, false⟩]
  transitions := []
  precisions := ⟨[(⟨0⟩, ⟨[.compare ⟨1, Nat.one_pos⟩ none .atMost 30]⟩)], some .empty⟩
  resumeAt := 0
  lastPath := []
  nextId := ⟨2⟩

/-- Until the alarm goes off, waiting leads there; afterwards it does not. -/
theorem errorStates_exact_alarm : ∃ place condition,
    alarm.build = .ok alarmAutomaton ∧
    AbstractGraph.build alarmAutomaton alarmGraph.precisions = .ok alarmGraph ∧
    alarmAutomaton.place ⟨0⟩ = .ok place ∧ alarmAutomaton.error? ⟨0⟩ = some condition ∧
    alarmGraph.isErrorState ⟨0⟩ = .ok true ∧
    (∃ valuation ∈ untilAlarm, valuation.Threatens place [goesOff]) ∧
    alarmGraph.isErrorState ⟨1⟩ = .ok false ∧
    (∀ valuation ∈ afterAlarm, ¬ valuation.Threatens place [goesOff]) ∧
    untilAlarm.meets condition.approach = .ok true ∧
    (do
      let doomed ← untilAlarm.meet condition.approach
      let waited ← doomed.elapse place.urgent place.invariants
      waited.meets condition.zone) = .ok true := by
  have hbuild : alarm.build = .ok alarmAutomaton := by decide +kernel
  have hlast : alarm.lastError? ⟨0⟩ = some [goesOff] := rfl
  have hmadeUntil : (Zone.top 1).transform
      [.restrict (.compare ⟨1, Nat.one_pos⟩ none .atMost 30)] = .ok untilAlarm := by
    decide +kernel
  have hmadeAfter : (Zone.top 1).transform
      [.restrict (.compare ⟨1, Nat.one_pos⟩ none .atMost 50),
        .restrict (.compare ⟨1, Nat.one_pos⟩ none .greater 30)] = .ok afterAlarm := by
    decide +kernel
  have huntil : untilAlarm.Composed 1 := .transform (.base .top) hmadeUntil
  have hafter : afterAlarm.Composed 1 := .transform (.base .top) hmadeAfter
  have herrorUntil : alarmGraph.isErrorState ⟨0⟩ = .ok true := by decide +kernel
  have herrorAfter : alarmGraph.isErrorState ⟨1⟩ = .ok false := by decide +kernel
  obtain ⟨place, condition, hplace, herror, -, hstates, helapse⟩ := errorStates_exact hbuild hlast
  have hmeets : untilAlarm.meets condition.approach = .ok true := by
    obtain rfl := Option.some.inj herror
    decide +kernel
  have hruns : ((do
      let doomed ← untilAlarm.meet condition.approach
      let waited ← doomed.elapse place.urgent place.invariants
      waited.meets condition.zone) : Except Fault Bool).map (fun _ ↦ ()) = .ok () := by
    obtain rfl := Except.ok.inj hplace
    obtain rfl := Option.some.inj herror
    decide +kernel
  obtain ⟨answer, hanswer, -⟩ := exists_ok_of_map hruns
  have htrue : answer = true := (helapse untilAlarm huntil hmeets).result hanswer
  refine ⟨place, condition, hbuild, by decide +kernel, hplace, herror, herrorUntil, ?_, herrorAfter,
    ?_, hmeets, htrue ▸ hanswer⟩
  · exact ((hstates alarmGraph ⟨0⟩ _ rfl rfl rfl huntil).result herrorUntil).mp rfl
  · intro valuation hmem hthreatens
    have hthreatened := (hstates alarmGraph ⟨1⟩ _ rfl rfl rfl hafter).result herrorAfter
    exact Bool.false_ne_true (hthreatened.mpr ⟨valuation, hmem, hthreatens⟩)

end AutomatonDraft

/-! ### A ring of clocks -/

/-- One clock is far below another. The least word is four such distances below zero. -/
def Constraint.farBelow (link : Clock × Clock) : Constraint :=
  .compare link.1 (some link.2) .atMost (-2 ^ 61)

/-- The zone of four clocks in which the first of each linked pair is far below the second, and the
first of each loose pair is not. -/
def Zone.linked (links loose : List (Clock × Clock)) : Zone where
  clocks := 4
  matrix := .tabulate fun i j ↦
    if links.any fun link ↦ (i.val = 0 ∨ i.val = link.1.id) ∧ j.val = link.2.id then
      .atMost (-2 ^ 61)
    else if loose.any fun link ↦ i.val = link.2.id ∧ j.val = link.1.id then .below (2 ^ 61)
    else if i.val = 0 ∨ i = j then .zero
    else .infinite

namespace AutomatonDraft

/-- The links of a ring of four clocks, each of which is far below the next. -/
def ringLink (n : Nat) : Clock × Clock :=
  (⟨n + 1, Nat.succ_pos n⟩, ⟨(n + 1) % 4 + 1, Nat.succ_pos _⟩)

theorem far_of_mem_linked {links loose : List (Clock × Clock)} {valuation : Valuation}
    (hmem : valuation ∈ Zone.linked links loose) {n : Nat} (hn : n < 4)
    (hlink : ringLink n ∈ links) :
    valuation.coordinate (n + 1) + 2 ^ 61 ≤ valuation.coordinate ((n + 1) % 4 + 1) := by
  have hlower : n + 1 < 5 := by omega
  have hupper : (n + 1) % 4 + 1 < 5 := by omega
  have hcell : (Zone.linked links loose).matrix.cell ⟨n + 1, hlower⟩ ⟨_, hupper⟩ =
      .atMost (-2 ^ 61) :=
    (BoundMatrix.cell_tabulate _ _ _).trans
      (if_pos (List.any_eq_true.mpr ⟨ringLink n, hlink, by simp [ringLink]⟩))
  have hadmits := ((Zone.mem_iff_admits _ _).mp hmem).2 ⟨n + 1, hlower⟩ ⟨_, hupper⟩
  rw [hcell] at hadmits
  have hle : valuation.coordinate (n + 1) - valuation.coordinate ((n + 1) % 4 + 1) ≤
      ((-2 ^ 61 : Int) : Rat) := hadmits
  push_cast at hle
  linarith

/-- Every other link. -/
def strands : List (Clock × Clock) := [ringLink 1, ringLink 3]

/-- The links that close the ring. -/
def clasps : List (Clock × Clock) := [ringLink 0, ringLink 2]

/-- No valuation obeys all links of the ring. -/
theorem not_mem_strands {valuation : Valuation} (hmem : valuation ∈ Zone.linked clasps []) :
    valuation ∉ Zone.linked strands [] := by
  intro hother
  have hfirst : valuation.coordinate 1 + 2 ^ 61 ≤ valuation.coordinate 2 :=
    far_of_mem_linked hmem (n := 0) (by decide) (by simp [clasps])
  have hsecond : valuation.coordinate 2 + 2 ^ 61 ≤ valuation.coordinate 3 :=
    far_of_mem_linked hother (n := 1) (by decide) (by simp [strands])
  have hthird : valuation.coordinate 3 + 2 ^ 61 ≤ valuation.coordinate 4 :=
    far_of_mem_linked hmem (n := 2) (by decide) (by simp [clasps])
  have hfourth : valuation.coordinate 4 + 2 ^ 61 ≤ valuation.coordinate 1 :=
    far_of_mem_linked hother (n := 3) (by decide) (by simp [strands])
  linarith

/-- A bridge that ends in an error where the strands are obeyed. -/
def ring : AutomatonDraft :=
  { Automaton.bridge ["a", "b", "c", "d"] (Automaton.bridgeMove [] [] []) with
    errors := [(⟨1⟩, strands.map .farBelow)] }

def ringAutomaton : Automaton :=
  { Automaton.bridgeAutomaton ["a", "b", "c", "d"] (Automaton.bridgeMove [] [] []) with
    errors := [⟨⟨1⟩, .linked strands [], .linked strands []⟩] }

theorem build_ring : ring.build = .ok ringAutomaton := by decide +kernel

end AutomatonDraft

namespace AbstractGraph

open AutomatonDraft

/-- The graph that tells at the end of the bridge which of the clasps are obeyed. -/
def ringGraph : AbstractGraph where
  automaton := ringAutomaton
  states := [⟨⟨0⟩, ⟨0⟩, .top 4, true, false⟩,
    ⟨⟨1⟩, ⟨1⟩, .linked clasps [], false, false⟩,
    ⟨⟨2⟩, ⟨1⟩, .linked [ringLink 0] [ringLink 2], false, false⟩,
    ⟨⟨3⟩, ⟨1⟩, .linked [ringLink 2] [ringLink 0], false, false⟩,
    ⟨⟨4⟩, ⟨1⟩, .linked [] clasps, false, false⟩]
  transitions := [⟨⟨0⟩, ⟨0⟩, ⟨1⟩⟩, ⟨⟨0⟩, ⟨0⟩, ⟨2⟩⟩, ⟨⟨0⟩, ⟨0⟩, ⟨3⟩⟩, ⟨⟨0⟩, ⟨0⟩, ⟨4⟩⟩]
  precisions := ⟨[(⟨1⟩, ⟨clasps.map .farBelow⟩)], some .empty⟩
  resumeAt := 0
  lastPath := []
  nextId := ⟨5⟩

theorem build_ringGraph : build ringAutomaton ringGraph.precisions = .ok ringGraph := by
  decide +kernel

/-- Where the clasps are obeyed, waiting can not lead into the error. Checking the state for that
overflows: its zone and the approach contradict each other only along the whole ring, and while
their meet is closed the distances around the ring add up. -/
theorem ring_check_overflows :
    ring.build = .ok ringAutomaton ∧ ring.lastError? ⟨1⟩ = some (strands.map .farBelow) ∧
    build ringAutomaton ringGraph.precisions = .ok ringGraph ∧
    ∃ place state, ringAutomaton.place ⟨1⟩ = .ok place ∧ ringGraph.state? ⟨1⟩ = some state ∧
      state.location = ⟨1⟩ ∧
      (∀ valuation ∈ state.zone, ¬ valuation.Threatens place (strands.map .farBelow)) ∧
      ringGraph.isErrorState ⟨1⟩ =
        .error (.boundOverflow (.atMost (-2 ^ 63)) (.atMost (-2 ^ 61))) := by
  have hlast : ring.lastError? ⟨1⟩ = some (strands.map .farBelow) := rfl
  obtain ⟨place, condition, herror⟩ := exists_errorAt build_ring hlast
  refine ⟨build_ring, hlast, build_ringGraph, place, _, herror.place_eq, rfl, rfl, ?_,
    by decide +kernel⟩
  intro valuation hmem hthreatens
  obtain rfl := Option.some.inj herror.error_eq
  exact not_mem_strands hmem
    ((herror.approach.mem_iff valuation).mpr ⟨Zone.clocks_of_mem hmem, hthreatens⟩)

end AbstractGraph

end TimedSafety
