import TimedSafety.Graph.Basic
import TimedSafety.Proofs.Automaton.Meaning
import TimedSafety.Proofs.Zone.Partition

/-!
How graphs grow. Adding states appends states with new numbers at one location, flagged as initial
just if they hold a starting valuation. Connecting changes the transitions only: it adds one for
every pair of a source and a target of which the first reaches the second.
-/

set_option autoImplicit false

namespace TimedSafety

/-! ### Transitions in order -/

namespace Transition

theorem order_eq_iff (left right : Transition) : order left right = .eq ↔ left = right := by
  obtain ⟨⟨source⟩, ⟨edge⟩, ⟨target⟩⟩ := left
  obtain ⟨⟨source'⟩, ⟨edge'⟩, ⟨target'⟩⟩ := right
  simp [order, Ordering.then_eq_eq]

@[simp] theorem mem_insertSorted_iff {transition other : Transition}
    {transitions : List Transition} :
    other ∈ insertSorted transition transitions ↔ other = transition ∨ other ∈ transitions := by
  induction transitions with
  | nil => simp [insertSorted]
  | cons head rest ih =>
    unfold insertSorted
    cases horder : order transition head with
    | lt => simp
    | eq =>
      obtain rfl := (order_eq_iff _ _).mp horder
      simp
    | gt =>
      simp only [List.mem_cons, ih]
      exact or_left_comm

end Transition

namespace AbstractGraph

variable {may : Fault → Prop} {graph : AbstractGraph}

/-! ### Connecting -/

/-- Some valuation of the first state leads to one of the second along the move. -/
def Reaches (move : Move) (source target : AbstractState) : Prop :=
  ∃ before ∈ source.zone, ∃ after ∈ target.zone, move.Leads before after

/-- The graph after gaining transitions, with nothing else changed. -/
def Gains (graph after : AbstractGraph) (gained : Transition → Prop) : Prop :=
  ∃ transitions, after = { graph with transitions } ∧
    ∀ transition, transition ∈ transitions ↔ transition ∈ graph.transitions ∨ gained transition

theorem Gains.refl (graph : AbstractGraph) : graph.Gains graph fun _ ↦ False :=
  ⟨graph.transitions, rfl, by simp⟩

theorem Gains.automaton_eq {after : AbstractGraph} {gained : Transition → Prop}
    (hgains : graph.Gains after gained) : after.automaton = graph.automaton := by
  obtain ⟨_, rfl, -⟩ := hgains
  rfl

theorem Gains.states_eq {after : AbstractGraph} {gained : Transition → Prop}
    (hgains : graph.Gains after gained) : after.states = graph.states := by
  obtain ⟨_, rfl, -⟩ := hgains
  rfl

theorem Gains.congr {after : AbstractGraph} {gained other : Transition → Prop}
    (hgains : graph.Gains after gained)
    (hsame : ∀ transition, gained transition ↔ other transition) : graph.Gains after other := by
  obtain ⟨transitions, hafter, hmem⟩ := hgains
  exact ⟨transitions, hafter, fun transition ↦
    (hmem transition).trans (or_congr_right (hsame transition))⟩

theorem Gains.trans {between after : AbstractGraph} {first second : Transition → Prop}
    (hfirst : graph.Gains between first) (hsecond : between.Gains after second) :
    graph.Gains after fun transition ↦ first transition ∨ second transition := by
  obtain ⟨earlier, rfl, hearlier⟩ := hfirst
  obtain ⟨later, rfl, hlater⟩ := hsecond
  refine ⟨later, rfl, fun transition ↦ ?_⟩
  rw [hlater, hearlier, or_assoc]

/-- A fold of steps that each gain transitions gains them all. -/
theorem Gains.foldlM {α : Type} {step : AbstractGraph → α → Except Fault AbstractGraph}
    {elements : List α} (gained : α → Transition → Prop)
    (hstep : ∀ element ∈ elements, ∀ current, (∃ gainedSoFar, graph.Gains current gainedSoFar) →
      Yields may (step current element) (current.Gains · (gained element))) :
    Yields may (elements.foldlM step graph) (graph.Gains · fun transition ↦
      ∃ element ∈ elements, gained element transition) := by
  refine Yields.foldlM (fun done (current : AbstractGraph) ↦ graph.Gains current fun transition ↦
    ∃ element ∈ done, gained element transition)
    ((Gains.refl graph).congr fun transition ↦ by simp) ?_
  intro done next rest helements current hcurrent
  refine (hstep next (by simp [helements]) current ⟨_, hcurrent⟩).mono fun after hafter ↦ ?_
  refine (hcurrent.trans hafter).congr fun transition ↦ ?_
  simp only [List.mem_append, List.mem_singleton, or_and_right, exists_or, exists_eq_left]

/-- The zone of the state is one over the clocks, in order. -/
def ZoneSound (clocks : Nat) (state : AbstractState) : Prop :=
  state.zone.Denotes clocks (· ∈ state.zone)

theorem connect_yields (hmay : Tolerant may) (htolerated : graph.automaton.Tolerated may)
    {edge : EdgeId} {move : Move} (hmove : graph.automaton.move edge = .ok move)
    {source target : AbstractState} (hsource : ZoneSound graph.automaton.clocks source)
    (htarget : ZoneSound graph.automaton.clocks target) :
    Yields may (graph.connect edge source target) (graph.Gains · fun transition ↦
      transition = ⟨source.id, edge, target.id⟩ ∧ Reaches move source target) := by
  rw [connect, hmove]
  refine (Move.post_yields hmay hsource (htolerated.move hmove)).bind fun image himage ↦ ?_
  refine (Zone.meets_yields hmay himage htarget).bind fun reached hreached ↦ ?_
  have hiff : reached = true ↔ Reaches move source target := by
    rw [hreached]
    constructor
    · rintro ⟨after, ⟨before, hbefore, hleads⟩, hafter⟩
      exact ⟨before, hbefore, after, hafter, hleads⟩
    · rintro ⟨before, hbefore, after, hafter, hleads⟩
      exact ⟨after, ⟨before, hbefore, hleads⟩, hafter⟩
  cases hcase : reached with
  | true =>
    refine ⟨_, rfl, fun transition ↦ Transition.mem_insertSorted_iff.trans ?_⟩
    exact or_comm.trans (or_congr_right (and_iff_left (hiff.mp hcase)).symm)
  | false =>
    refine (Gains.refl graph).congr fun transition ↦ ?_
    have hnot : ¬ Reaches move source target := fun hreaches ↦ by simp [hiff.mpr hreaches] at hcase
    simp [hnot]

theorem connectAll_yields (hmay : Tolerant may) (htolerated : graph.automaton.Tolerated may)
    {edge : EdgeId} {move : Move} (hmove : graph.automaton.move edge = .ok move)
    {sources targets : List AbstractState}
    (hsources : ∀ source ∈ sources, ZoneSound graph.automaton.clocks source)
    (htargets : ∀ target ∈ targets, ZoneSound graph.automaton.clocks target) :
    Yields may (graph.connectAll edge sources targets) (graph.Gains · fun transition ↦
      ∃ source ∈ sources, ∃ target ∈ targets, transition = ⟨source.id, edge, target.id⟩ ∧
        Reaches move source target) := by
  refine Gains.foldlM _ fun source hsource outer houter ↦ ?_
  refine Gains.foldlM _ fun target htarget inner hinner ↦ ?_
  obtain ⟨_, houter⟩ := houter
  obtain ⟨_, hinner⟩ := hinner
  have hautomaton := hinner.automaton_eq.trans houter.automaton_eq
  refine connect_yields hmay (by rwa [hautomaton]) (by rwa [hautomaton]) ?_ ?_
  · rw [hautomaton]
    exact hsources source hsource
  · rw [hautomaton]
    exact htargets target htarget

/-! ### Adding states -/

/-- The state is initial just if it is at the initial location and holds a starting valuation. -/
def FlagExact (automaton : Automaton) (state : AbstractState) : Prop :=
  state.initial = true ↔
    state.location = automaton.initial ∧ ∃ valuation ∈ state.zone, automaton.Starts valuation

/-- The graph after gaining states at a location, one per zone and with new numbers. -/
structure Appends (graph after : AbstractGraph) (location : Location) (zones : List Zone)
    (added : List AbstractState) : Prop where
  after_eq : after = { graph with states := graph.states ++ added, nextId := after.nextId }
  zones_eq : added.map (·.zone) = zones
  location_eq : ∀ state ∈ added, state.location = location
  plain : ∀ state ∈ added, state.highlighted = false
  le_id : ∀ state ∈ added, graph.nextId.number ≤ state.id.number
  id_lt : ∀ state ∈ added, state.id.number < after.nextId.number
  distinct : (added.map (·.id)).Nodup
  le_nextId : graph.nextId.number ≤ after.nextId.number

namespace Appends

variable {after : AbstractGraph} {location : Location} {zones : List Zone}
  {added : List AbstractState}

theorem automaton_eq (hadds : graph.Appends after location zones added) :
    after.automaton = graph.automaton := by
  rw [hadds.after_eq]

theorem states_eq (hadds : graph.Appends after location zones added) :
    after.states = graph.states ++ added := by
  rw [hadds.after_eq]

theorem transitions_eq (hadds : graph.Appends after location zones added) :
    after.transitions = graph.transitions := by
  rw [hadds.after_eq]

theorem precisions_eq (hadds : graph.Appends after location zones added) :
    after.precisions = graph.precisions := by
  rw [hadds.after_eq]

theorem lastPath_eq (hadds : graph.Appends after location zones added) :
    after.lastPath = graph.lastPath := by
  rw [hadds.after_eq]

theorem trans {final : AbstractGraph} {moreZones : List Zone} {more : List AbstractState}
    (hadds : graph.Appends after location zones added)
    (hmore : after.Appends final location moreZones more) :
    graph.Appends final location (zones ++ moreZones) (added ++ more) where
  after_eq := by
    rw [hmore.after_eq, hadds.after_eq, List.append_assoc]
  zones_eq := by rw [List.map_append, hadds.zones_eq, hmore.zones_eq]
  location_eq := List.forall_mem_append.mpr ⟨hadds.location_eq, hmore.location_eq⟩
  plain := List.forall_mem_append.mpr ⟨hadds.plain, hmore.plain⟩
  le_id := List.forall_mem_append.mpr
    ⟨hadds.le_id, fun state hstate ↦ hadds.le_nextId.trans (hmore.le_id state hstate)⟩
  id_lt := List.forall_mem_append.mpr
    ⟨fun state hstate ↦ (hadds.id_lt state hstate).trans_le hmore.le_nextId, hmore.id_lt⟩
  distinct := by
    rw [List.map_append]
    refine List.nodup_append.mpr ⟨hadds.distinct, hmore.distinct, ?_⟩
    rintro id hfirst _ hsecond rfl
    obtain ⟨state, hstate, rfl⟩ := List.mem_map.mp hfirst
    obtain ⟨other, hother, hsame⟩ := List.mem_map.mp hsecond
    have hbelow := hadds.id_lt state hstate
    have habove := hmore.le_id other hother
    rw [hsame] at habove
    exact absurd hbelow (not_lt.mpr habove)
  le_nextId := hadds.le_nextId.trans hmore.le_nextId

end Appends

/-- Whatever the flag turns out to be, adding a state appends it. -/
theorem addState_appends (graph : AbstractGraph) (location : Location) (zone : Zone) :
    Yields (fun _ ↦ True) (graph.addState location zone) fun result ↦
      graph.Appends result.1 location [zone] [result.2] := by
  have happends : ∀ initial : Bool, graph.Appends { graph with
      states := graph.states ++ [⟨graph.nextId, location, zone, initial, false⟩]
      nextId := graph.nextId.next } location [zone]
      [⟨graph.nextId, location, zone, initial, false⟩] := by
    intro initial
    exact ⟨rfl, rfl, by simp, by simp, by simp, by simp [StateId.next], by simp,
      by simp [StateId.next]⟩
  unfold addState
  split_ifs
  · exact (Yields.any _).bind fun start _ ↦ (Yields.any _).bind fun initial _ ↦ happends initial
  · exact happends false

theorem addStates_appends (graph : AbstractGraph) (location : Location) (zones : List Zone) :
    Yields (fun _ ↦ True) (graph.addStates location zones) fun result ↦
      graph.Appends result.1 location zones result.2 := by
  induction zones generalizing graph with
  | nil => exact ⟨by simp, rfl, by simp, by simp, by simp, by simp, by simp, le_rfl⟩
  | cons zone rest ih =>
    refine (graph.addState_appends location zone).bind ?_
    rintro ⟨grown, state⟩ hadd
    refine (ih grown).bind ?_
    rintro ⟨final, states⟩ hrest
    exact hadd.trans hrest

/-- The graph after gaining states whose flags say what they mean. -/
structure Adds (graph after : AbstractGraph) (location : Location) (zones : List Zone)
    (added : List AbstractState) : Prop extends Appends graph after location zones added where
  flag : ∀ state ∈ added, FlagExact graph.automaton state

theorem addState_flag (hmay : Tolerant may) (hwell : graph.automaton.WellFormed)
    (location : Location) {zone : Zone} {valuations : Valuation → Prop}
    (hzone : zone.Denotes graph.automaton.clocks valuations) :
    Yields may (graph.addState location zone) fun result ↦
      FlagExact graph.automaton result.2 := by
  unfold addState
  by_cases hinitial : location = graph.automaton.initial
  · rw [if_pos hinitial]
    refine (Automaton.initialZone_yields hmay hwell).bind fun start hstart ↦ ?_
    refine (Zone.meets_yields hmay hzone hstart).bind fun initial hmeets ↦ ?_
    simp only [Yields.pure_iff, FlagExact, hmeets, hinitial, true_and, hzone.mem_iff]
  · rw [if_neg hinitial]
    simp [FlagExact, hinitial]

theorem addStates_yields (hmay : Tolerant may) (location : Location) {zones : List Zone}
    {clocks : Nat} (hzones : ∀ zone ∈ zones, zone.Denotes clocks (· ∈ zone))
    (hwell : graph.automaton.WellFormed) (hclocks : graph.automaton.clocks = clocks) :
    Yields may (graph.addStates location zones) fun result ↦
      graph.Adds result.1 location zones result.2 := by
  have hflags : Yields may (graph.addStates location zones) fun result ↦
      ∀ state ∈ result.2, FlagExact graph.automaton state := by
    induction zones generalizing graph with
    | nil => simp [addStates]
    | cons zone rest ih =>
      subst hclocks
      refine ((addState_flag hmay hwell location (hzones zone List.mem_cons_self)).and
        (graph.addState_appends location zone)).bind ?_
      rintro ⟨grown, state⟩ ⟨hflag, hadd⟩
      have hautomaton := hadd.automaton_eq
      refine (ih (fun other hother ↦ hzones other (List.mem_cons_of_mem _ hother))
        (by rwa [hautomaton]) (by rw [hautomaton])).bind ?_
      rintro ⟨final, states⟩ hrest
      exact List.forall_mem_cons.mpr ⟨hflag, hautomaton ▸ hrest⟩
  exact (hflags.and (graph.addStates_appends location zones)).mono
    fun result hresult ↦ ⟨hresult.2, hresult.1⟩

end AbstractGraph

end TimedSafety
