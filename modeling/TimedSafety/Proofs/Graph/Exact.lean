import Mathlib.Data.List.Nodup
import Mathlib.Data.List.Pairwise
import TimedSafety.Proofs.Graph.Growth

/-!
Exact abstractions. A graph is exact if the states at each location tile what the location allows,
flags and transitions say what they mean, and numbers are distinct and below the next one. A built
graph is exact, and splitting a state into a tiling of its zone keeps it so: a transition between
pieces can only exist where there was one between the states they were cut from.
-/

set_option autoImplicit false

namespace TimedSafety.AbstractGraph

variable {may : Fault → Prop} {graph : AbstractGraph}

/-- The edge joins the locations of the states, and some valuation of the first leads along it to
one of the second. -/
def Joins (automaton : Automaton) (edge : EdgeId) (source target : AbstractState) : Prop :=
  ∃ move, automaton.move edge = .ok move ∧ source.location = move.source ∧
    target.location = move.target ∧ Reaches move source target

/-- The zones of the states at a location. -/
def zonesAt (graph : AbstractGraph) (location : Location) : List Zone :=
  (graph.statesAt location).map (·.zone)

/-- States are an exact partition: numbers are distinct and below the next one, the zones at each
location tile what it allows, and the initial states are those with a starting valuation. -/
structure StatesExact (graph : AbstractGraph) : Prop where
  distinct : (graph.states.map (·.id)).Nodup
  fresh : ∀ state ∈ graph.states, state.id.number < graph.nextId.number
  tiles : ∀ location, Tiles (graph.zonesAt location) graph.automaton.clocks
    (graph.automaton.Allows location)
  flag : ∀ state ∈ graph.states, FlagExact graph.automaton state

/-- States and transitions are exact: a transition is there just if its edge joins its states. -/
structure Exact (graph : AbstractGraph) : Prop extends StatesExact graph where
  transition_iff : ∀ transition, transition ∈ graph.transitions ↔
    ∃ source ∈ graph.states, ∃ target ∈ graph.states, source.id = transition.source ∧
      target.id = transition.target ∧ Joins graph.automaton transition.edge source target

/-! ### States and their numbers -/

theorem mem_statesAt_iff {location : Location} {state : AbstractState} :
    state ∈ graph.statesAt location ↔ state ∈ graph.states ∧ state.location = location := by
  simp [statesAt]

theorem mem_zonesAt {state : AbstractState} (hstate : state ∈ graph.states) :
    state.zone ∈ graph.zonesAt state.location :=
  List.mem_map.mpr ⟨state, mem_statesAt_iff.mpr ⟨hstate, rfl⟩, rfl⟩

theorem mem_of_state? {id : StateId} {state : AbstractState}
    (hstate : graph.state? id = some state) : state ∈ graph.states :=
  List.mem_of_find?_eq_some hstate

theorem state?_eq_some_iff (hdistinct : (graph.states.map (·.id)).Nodup) {id : StateId}
    {state : AbstractState} :
    graph.state? id = some state ↔ state ∈ graph.states ∧ state.id = id := by
  constructor
  · intro hfound
    exact ⟨mem_of_state? hfound, by simpa using List.find?_some hfound⟩
  · rintro ⟨hstate, rfl⟩
    obtain ⟨found, hfound⟩ := Option.isSome_iff_exists.mp
      (List.find?_isSome (p := fun other ↦ decide (other.id = state.id)).mpr
        ⟨state, hstate, by simp⟩)
    have hid : found.id = state.id := by simpa using List.find?_some hfound
    rw [state?, hfound,
      List.inj_on_of_nodup_map hdistinct (List.mem_of_find?_eq_some hfound) hstate hid]

namespace StatesExact

variable (hexact : graph.StatesExact)

include hexact

theorem eq_of_id {first second : AbstractState} (hfirst : first ∈ graph.states)
    (hsecond : second ∈ graph.states) (hid : first.id = second.id) : first = second :=
  List.inj_on_of_nodup_map hexact.distinct hfirst hsecond hid

theorem zoneSound {state : AbstractState} (hstate : state ∈ graph.states) :
    ZoneSound graph.automaton.clocks state :=
  (hexact.tiles state.location).denotes (mem_zonesAt hstate)

theorem isBottom_eq {state : AbstractState} (hstate : state ∈ graph.states) :
    state.zone.isBottom = false :=
  (hexact.tiles state.location).nonempty _ (mem_zonesAt hstate)

theorem allows {state : AbstractState} (hstate : state ∈ graph.states) {valuation : Valuation}
    (hmem : valuation ∈ state.zone) : graph.automaton.Allows state.location valuation :=
  (hexact.tiles state.location).subset (mem_zonesAt hstate) hmem

/-- Every allowed valuation lies in a state at its location. -/
theorem exists_state {location : Location} {valuation : Valuation}
    (hallows : graph.automaton.Allows location valuation) :
    ∃ state ∈ graph.states, state.location = location ∧ valuation ∈ state.zone := by
  obtain ⟨zone, hzone, hmem⟩ := ((hexact.tiles location).cover valuation).mp hallows
  obtain ⟨state, hstate, rfl⟩ := List.mem_map.mp hzone
  obtain ⟨hstate, hlocation⟩ := mem_statesAt_iff.mp hstate
  exact ⟨state, hstate, hlocation, hmem⟩

/-- States at one location share no valuation. -/
theorem eq_of_mem {first second : AbstractState} (hfirst : first ∈ graph.states)
    (hsecond : second ∈ graph.states) (hlocation : first.location = second.location)
    {valuation : Valuation} (hmem : valuation ∈ first.zone) (hother : valuation ∈ second.zone) :
    first = second := by
  have hdisjoint := List.pairwise_map.mp (hexact.tiles second.location).disjoint
  have : Std.Symm fun first second : AbstractState ↦
      ∀ valuation ∈ first.zone, valuation ∉ second.zone :=
    ⟨fun _ _ hnone valuation hin hout ↦ hnone valuation hout hin⟩
  by_contra hne
  exact hdisjoint.forall (mem_statesAt_iff.mpr ⟨hfirst, hlocation⟩)
    (mem_statesAt_iff.mpr ⟨hsecond, rfl⟩) hne valuation hmem hother

theorem location_mem {state : AbstractState} (hstate : state ∈ graph.states) :
    state.location ∈ graph.automaton.locations := by
  obtain ⟨valuation, hmem⟩ :=
    (hexact.tiles state.location).exists_mem (mem_zonesAt hstate)
  exact (hexact.allows hstate hmem).mem_locations

end StatesExact

/-! ### Building -/

/-- The zones are the cells that the atoms of its precision cut out of what the location allows. -/
def CellsOf (automaton : Automaton) (precisions : PrecisionTable Precision) (location : Location)
    (zones : List Zone) : Prop :=
  ∃ precision, ∃ partition : Partition, precisions.precision? location = some precision ∧
    zones = partition.pieces ∧
      partition.By automaton.clocks (automaton.Allows location) precision.atoms

theorem CellsOf.tiles {automaton : Automaton} {precisions : PrecisionTable Precision}
    {location : Location} {zones : List Zone}
    (hcells : CellsOf automaton precisions location zones) :
    Tiles zones automaton.clocks (automaton.Allows location) := by
  obtain ⟨_, _, -, rfl, hby⟩ := hcells
  exact hby.tiles

/-- The states so far are the cells of the given locations, and there are none elsewhere. -/
structure CellsExact (automaton : Automaton) (precisions : PrecisionTable Precision)
    (done : List Location) (graph : AbstractGraph) : Prop where
  automaton_eq : graph.automaton = automaton
  precisions_eq : graph.precisions = precisions
  transitions_eq : graph.transitions = []
  distinct : (graph.states.map (·.id)).Nodup
  fresh : ∀ state ∈ graph.states, state.id.number < graph.nextId.number
  cells : ∀ location ∈ done, CellsOf automaton precisions location (graph.zonesAt location)
  elsewhere : ∀ state ∈ graph.states, state.location ∈ done
  flag : ∀ state ∈ graph.states, FlagExact automaton state
  computed : ∀ location ∈ done, ∃ allowed, automaton.invariantZone location = .ok allowed

/-- Faults in cutting cells are admitted: by a precision that is missing, or by an atom with clocks
out of range where there is something to cut. -/
structure CellsTolerated (may : Fault → Prop) (automaton : Automaton)
    (precisions : PrecisionTable Precision) : Prop where
  missing : ∀ location ∈ automaton.locations, precisions.precision? location = none →
    may (.noPrecision location)
  atoms : ∀ location precision, precisions.precision? location = some precision →
    (∃ valuation, automaton.Allows location valuation) → ∀ atom ∈ precision.atoms,
      atom.isAtom = true → atom.Tolerated may automaton.clocks

/-- Faults of a precision are admitted: one that is missing, or one with clocks out of range. -/
structure PrecisionsTolerated (may : Fault → Prop) (automaton : Automaton)
    (precisions : PrecisionTable Precision) : Prop where
  missing : ∀ location ∈ automaton.locations, precisions.precision? location = none →
    may (.noPrecision location)
  atoms : ∀ location precision, precisions.precision? location = some precision →
    ∀ atom ∈ precision.atoms, atom.Tolerated may automaton.clocks

theorem PrecisionsTolerated.cells {automaton : Automaton} {precisions : PrecisionTable Precision}
    (hprecisions : PrecisionsTolerated may automaton precisions) :
    CellsTolerated may automaton precisions :=
  ⟨hprecisions.missing, fun location precision hfound _ atom hatom _ ↦
    hprecisions.atoms location precision hfound atom hatom⟩

theorem Appends.distinct_append {after : AbstractGraph} {location : Location} {zones : List Zone}
    {added : List AbstractState} (hadds : graph.Appends after location zones added)
    (hdistinct : (graph.states.map (·.id)).Nodup)
    (hfresh : ∀ state ∈ graph.states, state.id.number < graph.nextId.number) :
    (after.states.map (·.id)).Nodup := by
  rw [hadds.states_eq, List.map_append]
  refine List.nodup_append.mpr ⟨hdistinct, hadds.distinct, ?_⟩
  rintro id hold _ hnew rfl
  obtain ⟨state, hstate, rfl⟩ := List.mem_map.mp hold
  obtain ⟨other, hother, hsame⟩ := List.mem_map.mp hnew
  have habove := hadds.le_id other hother
  rw [hsame] at habove
  exact absurd (hfresh state hstate) (not_lt.mpr habove)

theorem Appends.fresh_append {after : AbstractGraph} {location : Location} {zones : List Zone}
    {added : List AbstractState} (hadds : graph.Appends after location zones added)
    (hfresh : ∀ state ∈ graph.states, state.id.number < graph.nextId.number) :
    ∀ state ∈ after.states, state.id.number < after.nextId.number := by
  rw [hadds.states_eq]
  exact List.forall_mem_append.mpr ⟨fun state hstate ↦
    (hfresh state hstate).trans_le hadds.le_nextId, hadds.id_lt⟩

/-- The zones at the location of new states are the old ones and theirs. -/
theorem Appends.zonesAt_append {after : AbstractGraph} {location : Location} {zones : List Zone}
    {added : List AbstractState} (hadds : graph.Appends after location zones added)
    (here : Location) : after.zonesAt here =
      graph.zonesAt here ++ if here = location then zones else [] := by
  have hadded : (added.filter fun state ↦ state.location = here).map (·.zone) =
      if here = location then zones else [] := by
    split_ifs with hhere
    · rw [List.filter_eq_self.mpr, hadds.zones_eq]
      intro state hstate
      simp [hadds.location_eq state hstate, hhere]
    · rw [List.filter_eq_nil_iff.mpr, List.map_nil]
      intro state hstate
      simp [hadds.location_eq state hstate, Ne.symm hhere]
  rw [zonesAt, statesAt, hadds.states_eq, List.filter_append, List.map_append, hadded]
  rfl

theorem precision_yields {precisions : PrecisionTable Precision} {location : Location}
    (hmissing : precisions.precision? location = none → may (.noPrecision location)) :
    Yields may (precisions.precision location) (precisions.precision? location = some ·) := by
  unfold PrecisionTable.precision
  cases hprecision : precisions.precision? location with
  | none => exact hmissing hprecision
  | some precision => exact rfl

theorem cells_yields (hmay : Tolerant may) {precision : Precision} {base : Zone} {clocks : Nat}
    {valuations : Valuation → Prop} (hbase : base.Denotes clocks valuations)
    (hatoms : (∃ valuation, valuations valuation) → ∀ atom ∈ precision.atoms, atom.isAtom = true →
      atom.Tolerated may clocks) :
    Yields may (precision.cells base) fun cells ↦ ∃ partition : Partition,
      cells = partition.pieces ∧ partition.By clocks valuations precision.atoms :=
  (Zone.partitionBy_exact hmay hbase hatoms).bind fun partition hby ↦ ⟨partition, rfl, hby⟩

theorem addCells_yields (hmay : Tolerant may) {automaton : Automaton}
    {precisions : PrecisionTable Precision} (hwell : automaton.WellFormed)
    (hprecisions : CellsTolerated may automaton precisions) {done : List Location}
    (hcells : CellsExact automaton precisions done graph) {location : Location}
    (hlocation : location ∈ automaton.locations) (hnew : location ∉ done) :
    Yields may (graph.addCells location)
      (CellsExact automaton precisions (done ++ [location])) := by
  obtain rfl := hcells.automaton_eq
  obtain rfl := hcells.precisions_eq
  refine (precision_yields (hprecisions.missing location hlocation)).bind fun precision hfound ↦ ?_
  refine (Automaton.invariantZone_yields hmay hwell hlocation).bind_eq
    fun allowed hcomputed hallowed ↦ ?_
  refine (cells_yields hmay hallowed (hprecisions.atoms location precision hfound)).bind
    ?_
  rintro cells ⟨partition, hpieces, hby⟩
  have hcell : CellsOf graph.automaton graph.precisions location cells :=
    ⟨precision, partition, hfound, hpieces, hby⟩
  have htiles := hcell.tiles
  refine (addStates_yields hmay location (fun zone hzone ↦ htiles.denotes hzone) hwell rfl).bind ?_
  rintro ⟨grown, added⟩ hadds
  have hnone : graph.zonesAt location = [] := by
    rw [zonesAt, List.map_eq_nil_iff, statesAt, List.filter_eq_nil_iff]
    intro state hstate hhere
    exact hnew (of_decide_eq_true hhere ▸ hcells.elsewhere state hstate)
  refine ⟨hadds.automaton_eq, hadds.precisions_eq, hadds.transitions_eq.trans hcells.transitions_eq,
    hadds.distinct_append hcells.distinct hcells.fresh, hadds.fresh_append hcells.fresh, ?_, ?_, ?_,
    List.forall_mem_append.mpr ⟨hcells.computed, by simpa using ⟨allowed, hcomputed⟩⟩⟩
  · intro here hhere
    rw [hadds.zonesAt_append]
    rcases List.mem_append.mp hhere with hdone | hhere
    · have hother : here ≠ location := by
        rintro rfl
        exact hnew hdone
      rw [if_neg hother, List.append_nil]
      exact hcells.cells here hdone
    · obtain rfl := List.mem_singleton.mp hhere
      rw [if_pos rfl, hnone, List.nil_append]
      exact hcell
  · rw [hadds.states_eq]
    refine List.forall_mem_append.mpr ⟨fun state hstate ↦
      List.mem_append_left _ (hcells.elsewhere state hstate), fun state hstate ↦ ?_⟩
    rw [hadds.location_eq state hstate]
    exact List.mem_append_right _ List.mem_cons_self
  · rw [hadds.states_eq]
    exact List.forall_mem_append.mpr ⟨hcells.flag, hadds.flag⟩

theorem nodup_locations (automaton : Automaton) : automaton.locations.Nodup := by
  refine List.Nodup.map ?_ List.nodup_range
  intro first second hsame
  exact congrArg Location.index hsame

/-- The first part of building a graph: the cells of all locations. -/
theorem cellsExact_yields (hmay : Tolerant may) {automaton : Automaton}
    {precisions : PrecisionTable Precision} (hwell : automaton.WellFormed)
    (hprecisions : CellsTolerated may automaton precisions) :
    Yields may (automaton.locations.foldlM addCells (empty automaton precisions))
      (CellsExact automaton precisions automaton.locations) := by
  refine Yields.foldlM (CellsExact automaton precisions) ?_ ?_
  · exact ⟨rfl, rfl, rfl, by simp [empty], by simp [empty], by simp, by simp [empty],
      by simp [empty], by simp⟩
  · intro done location rest hlocations current hcurrent
    refine addCells_yields hmay hwell hprecisions hcurrent (by simp [hlocations]) ?_
    have hnodup := nodup_locations automaton
    rw [hlocations] at hnodup
    intro hdone
    exact (List.nodup_append.mp hnodup).2.2 location hdone location List.mem_cons_self rfl

/-- States that are exact at all locations of the automaton are exact. -/
theorem CellsExact.statesExact {automaton : Automaton} {precisions : PrecisionTable Precision}
    (hcells : CellsExact automaton precisions automaton.locations graph) : graph.StatesExact := by
  obtain rfl := hcells.automaton_eq
  refine ⟨hcells.distinct, hcells.fresh, fun location ↦ ?_, hcells.flag⟩
  by_cases hlocation : location ∈ graph.automaton.locations
  · exact (hcells.cells location hlocation).tiles
  · have hnone : graph.zonesAt location = [] := by
      rw [zonesAt, List.map_eq_nil_iff, statesAt, List.filter_eq_nil_iff]
      intro state hstate hhere
      exact hlocation (of_decide_eq_true hhere ▸ hcells.elsewhere state hstate)
    rw [hnone]
    exact Tiles.nil fun valuation hallows ↦ hlocation hallows.mem_locations

/-- Connecting the ends of an edge adds the transitions along it. -/
theorem connectEnds_yields (hmay : Tolerant may) (htolerated : graph.automaton.Tolerated may)
    (hsound : ∀ state ∈ graph.states, ZoneSound graph.automaton.clocks state) {edge : Edge}
    (hedge : edge ∈ graph.automaton.edges) :
    Yields may (graph.connectAll edge.id (graph.statesAt edge.source) (graph.statesAt edge.target))
      (graph.Gains · fun transition ↦ ∃ source ∈ graph.states, ∃ target ∈ graph.states,
        transition = ⟨source.id, edge.id, target.id⟩ ∧
          Joins graph.automaton edge.id source target) := by
  obtain ⟨move, hmove, hof⟩ := Automaton.exists_move htolerated.wellFormed hedge
  refine (connectAll_yields hmay htolerated hmove
    (fun source hsource ↦ hsound source (mem_statesAt_iff.mp hsource).1)
    fun target htarget ↦ hsound target (mem_statesAt_iff.mp htarget).1).mono
    fun after hafter ↦ hafter.congr fun transition ↦ ?_
  constructor
  · rintro ⟨source, hsource, target, htarget, rfl, hreaches⟩
    obtain ⟨hsource, hsourceLocation⟩ := mem_statesAt_iff.mp hsource
    obtain ⟨htarget, htargetLocation⟩ := mem_statesAt_iff.mp htarget
    exact ⟨source, hsource, target, htarget, rfl, move, hmove,
      hsourceLocation.trans hof.source.symm, htargetLocation.trans hof.target.symm, hreaches⟩
  · rintro ⟨source, hsource, target, htarget, rfl, found, hfound, hsourceLocation,
      htargetLocation, hreaches⟩
    obtain rfl : move = found := Except.ok.inj (hmove.symm.trans hfound)
    exact ⟨source, mem_statesAt_iff.mpr ⟨hsource, hsourceLocation.trans hof.source⟩,
      target, mem_statesAt_iff.mpr ⟨htarget, htargetLocation.trans hof.target⟩, rfl, hreaches⟩

theorem Gains.statesExact {after : AbstractGraph} {gained : Transition → Prop}
    (hgains : graph.Gains after gained) (hexact : graph.StatesExact) : after.StatesExact := by
  obtain ⟨_, rfl, -⟩ := hgains
  exact ⟨hexact.distinct, hexact.fresh, hexact.tiles, hexact.flag⟩

/-- A graph that is built is exact, and was built from the invariant zones of all locations. -/
theorem build_yields (hmay : Tolerant may) {automaton : Automaton}
    {precisions : PrecisionTable Precision} (htolerated : automaton.Tolerated may)
    (hprecisions : PrecisionsTolerated may automaton precisions) :
    Yields may (build automaton precisions) fun graph ↦
      graph.automaton = automaton ∧ graph.precisions = precisions ∧ graph.Exact ∧
        ∀ location ∈ automaton.locations,
          ∃ allowed, automaton.invariantZone location = .ok allowed := by
  have hwell := htolerated.wellFormed
  refine (cellsExact_yields hmay hwell hprecisions.cells).bind fun celled hcelled ↦ ?_
  have hstates := hcelled.statesExact
  obtain rfl := hcelled.automaton_eq
  refine (Gains.foldlM (fun (edge : Edge) transition ↦
    ∃ source ∈ celled.states, ∃ target ∈ celled.states,
      transition = ⟨source.id, edge.id, target.id⟩ ∧
        Joins celled.automaton edge.id source target) ?_).mono fun graph hgraph ↦ ?_
  · rintro edge hedge current ⟨_, hcurrent⟩
    have hcurrentStates := hcurrent.statesExact hstates
    rw [← hcurrent.automaton_eq, ← hcurrent.states_eq]
    exact connectEnds_yields hmay (by rwa [hcurrent.automaton_eq])
      (fun state hstate ↦ hcurrentStates.zoneSound hstate) (by rwa [hcurrent.automaton_eq])
  · refine ⟨hgraph.automaton_eq, ?_, ⟨hgraph.statesExact hstates, fun transition ↦ ?_⟩,
      hcelled.computed⟩
    · obtain ⟨_, rfl, -⟩ := hgraph
      exact hcelled.precisions_eq
    obtain ⟨transitions, rfl, hmem⟩ := hgraph
    rw [hmem, hcelled.transitions_eq]
    constructor
    · rintro (hnone | ⟨edge, -, source, hsource, target, htarget, rfl, hjoins⟩)
      · exact absurd hnone List.not_mem_nil
      · exact ⟨source, hsource, target, htarget, rfl, rfl, hjoins⟩
    · rintro ⟨source, hsource, target, htarget, hsourceId, htargetId, hjoins⟩
      obtain ⟨move, hmove, -⟩ := id hjoins
      obtain ⟨edge, hedge, hid, -⟩ := Automaton.moveOf_of_move hwell hmove
      refine Or.inr ⟨edge, hedge, source, hsource, target, htarget, ?_, by rwa [hid]⟩
      rw [hsourceId, htargetId, hid]

end TimedSafety.AbstractGraph
