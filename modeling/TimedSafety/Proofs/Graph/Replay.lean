import TimedSafety.Graph.Replay
import TimedSafety.Proofs.Graph.Search

/-!
Replay with exact zones is exact. Along a path of an exact graph, the zone at each position holds
just the valuations with which runs through the states before it arrive there (`ReachedAt`), and the
replay stops where there are none. So the verdict is right: a path is feasible just if some
valuation that is reached at its last state can wait into an error, and the trace then is one of a
run (`ReachedAt.exists_run`).
-/

set_option autoImplicit false

namespace TimedSafety

/-- The trace shows an error: a run through just its locations can wait at the last one into the
valuation of the last step, which is an error there; and every step before is the end of a run
through the locations up to it. -/
structure Automaton.Violates (automaton : Automaton) (trace : Trace) : Prop where
  nonempty : trace.steps ≠ []
  ends : ∃ taken here final, automaton.Run taken here ∧ automaton.Fails here final ∧
    taken.map (·.1.location) ++ [here.location] = trace.steps.map (·.location) ∧
    trace.steps.getLast? = some ⟨here.location, final⟩
  entered : ∀ (index : Nat) (step : Configuration), trace.steps[index]? = some step →
    index + 1 < trace.steps.length → ∃ taken, automaton.Run taken step ∧
      taken.map (·.1.location) ++ [step.location] = (trace.steps.take (index + 1)).map (·.location)

namespace AbstractGraph

variable {may : Fault → Prop} {graph : AbstractGraph} {path : List StateId}

/-! ### Steps of a path -/

/-- The location of a state, by its number. -/
def location? (graph : AbstractGraph) (id : StateId) : Option Location :=
  (graph.state? id).map (·.location)

theorem edgeBetween_mem {source target : StateId} {edge : EdgeId}
    (hedge : graph.edgeBetween source target = some edge) :
    ⟨source, edge, target⟩ ∈ graph.transitions := by
  unfold edgeBetween at hedge
  obtain ⟨⟨found, next⟩, hfound, rfl⟩ := Option.map_eq_some_iff.mp hedge
  obtain rfl : next = target := by simpa using List.find?_some hfound
  obtain ⟨⟨start, along, final⟩, htransition, hsame⟩ :=
    List.mem_map.mp (List.mem_of_find?_eq_some hfound)
  obtain ⟨hmem, hsource⟩ := List.mem_filter.mp htransition
  obtain rfl : start = source := of_decide_eq_true hsource
  obtain ⟨rfl, rfl⟩ := Prod.mk.inj hsame
  exact hmem

theorem pathMove_eq_ok_iff {source target : StateId} {move : Move} :
    graph.pathMove source target = .ok move ↔
      ∃ edge, graph.edgeBetween source target = some edge ∧
        graph.automaton.move edge = .ok move := by
  unfold pathMove
  cases graph.edgeBetween source target <;> simp

/-- The move between two states of a path leads from the location of one to that of the other, and
from some valuation of one to some valuation of the other. -/
theorem Exact.joins_of_pathMove (hexact : graph.Exact) {source target : StateId} {move : Move}
    (hmove : graph.pathMove source target = .ok move) :
    ∃ first second edge, graph.state? source = some first ∧ graph.state? target = some second ∧
      graph.automaton.move edge = .ok move ∧ first.location = move.source ∧
      second.location = move.target ∧ Reaches move first second := by
  obtain ⟨edge, hedge, hmove⟩ := pathMove_eq_ok_iff.mp hmove
  obtain ⟨first, hfirst, second, hsecond, hsource, htarget, other, hother, hjoins⟩ :=
    (hexact.transition_iff _).mp (edgeBetween_mem hedge)
  obtain rfl : other = move := Except.ok.inj (hother.symm.trans hmove)
  exact ⟨first, second, edge, (state?_eq_some_iff hexact.distinct).mpr ⟨hfirst, hsource⟩,
    (state?_eq_some_iff hexact.distinct).mpr ⟨hsecond, htarget⟩, hmove, hjoins⟩

theorem Exact.exists_pathMove (hexact : graph.Exact) {source target : StateId}
    (hlinked : graph.Linked source target) : ∃ move, graph.pathMove source target = .ok move := by
  obtain ⟨edge, hedge⟩ := Option.isSome_iff_exists.mp (edgeBetween_isSome_iff.mpr hlinked)
  obtain ⟨_, _, _, _, _, _, move, hmove, -⟩ := (hexact.transition_iff _).mp (edgeBetween_mem hedge)
  exact ⟨move, pathMove_eq_ok_iff.mpr ⟨edge, hedge, hmove⟩⟩

theorem pathState_eq_ok_iff {id : StateId} {state : AbstractState} :
    graph.pathState id = .ok state ↔ graph.state? id = some state := by
  unfold pathState
  cases graph.state? id <;> simp

/-! ### Reached valuations -/

/-- The valuation can be reached at the position of a path, from an initial one at the first state
and through all states between. -/
def ReachedAt (graph : AbstractGraph) (path : List StateId) : Nat → Valuation → Prop
  | 0, valuation => graph.automaton.Starts valuation ∧
      ∃ id state, path[0]? = some id ∧ graph.state? id = some state ∧ valuation ∈ state.zone
  | index + 1, valuation => ∃ source target move state before,
      path[index]? = some source ∧ path[index + 1]? = some target ∧
      graph.pathMove source target = .ok move ∧ graph.state? target = some state ∧
      graph.ReachedAt path index before ∧ move.Leads before valuation ∧ valuation ∈ state.zone

theorem ReachedAt.mem_zone {index : Nat} {valuation : Valuation}
    (hreached : graph.ReachedAt path index valuation) :
    ∃ id state, path[index]? = some id ∧ graph.state? id = some state ∧
      valuation ∈ state.zone := by
  cases index with
  | zero => exact hreached.2
  | succ index =>
    obtain ⟨source, target, move, state, before, -, htarget, -, hstate, -, -, hmem⟩ := hreached
    exact ⟨target, state, htarget, hstate, hmem⟩

/-- What is reached at a position lies in the state there. -/
theorem ReachedAt.mem_of_state {index : Nat} {valuation : Valuation} {id : StateId}
    {state : AbstractState} (hreached : graph.ReachedAt path index valuation)
    (hid : path[index]? = some id) (hstate : graph.state? id = some state) :
    valuation ∈ state.zone := by
  obtain ⟨other, found, hother, hfound, hmem⟩ := hreached.mem_zone
  obtain rfl : id = other := Option.some.inj (hid.symm.trans hother)
  obtain rfl : state = found := Option.some.inj (hstate.symm.trans hfound)
  exact hmem

theorem reachedAt_zero_iff {id : StateId} {state : AbstractState} (hid : path[0]? = some id)
    (hstate : graph.state? id = some state) {valuation : Valuation} :
    graph.ReachedAt path 0 valuation ↔
      graph.automaton.Starts valuation ∧ valuation ∈ state.zone :=
  ⟨fun hreached ↦ ⟨hreached.1, ReachedAt.mem_of_state hreached hid hstate⟩,
    fun hstarts ↦ ⟨hstarts.1, id, state, hid, hstate, hstarts.2⟩⟩

theorem reachedAt_succ_iff {index : Nat} {source target : StateId} {move : Move}
    {state : AbstractState} (hsource : path[index]? = some source)
    (htarget : path[index + 1]? = some target) (hmove : graph.pathMove source target = .ok move)
    (hstate : graph.state? target = some state) {valuation : Valuation} :
    graph.ReachedAt path (index + 1) valuation ↔
      (∃ before, graph.ReachedAt path index before ∧ move.Leads before valuation) ∧
        valuation ∈ state.zone := by
  constructor
  · intro hreached
    refine ⟨?_, hreached.mem_of_state htarget hstate⟩
    obtain ⟨source', target', move', state', before, hsource', htarget', hmove', -, hbefore, hleads,
      -⟩ := hreached
    obtain rfl : source = source' := Option.some.inj (hsource.symm.trans hsource')
    obtain rfl : target = target' := Option.some.inj (htarget.symm.trans htarget')
    obtain rfl : move = move' := Except.ok.inj (hmove.symm.trans hmove')
    exact ⟨before, hbefore, hleads⟩
  · rintro ⟨⟨before, hbefore, hleads⟩, hmem⟩
    exact ⟨source, target, move, state, before, hsource, htarget, hmove, hstate, hbefore, hleads,
      hmem⟩

/-- What is reached at a position ends a run of the automaton through the locations up to it. -/
theorem ReachedAt.exists_run (hexact : graph.Exact) (hstart : graph.StartsInitial path)
    {index : Nat} {valuation : Valuation} (hreached : graph.ReachedAt path index valuation) :
    ∃ taken id state, path[index]? = some id ∧ graph.state? id = some state ∧
      graph.automaton.Run taken ⟨state.location, valuation⟩ ∧
      (taken.map (·.1.location) ++ [state.location]).map some =
        (path.take (index + 1)).map graph.location? := by
  induction index generalizing valuation with
  | zero =>
    obtain ⟨hstarts, -⟩ := hreached
    obtain ⟨state, hmember, hhead, hinitial⟩ := hstart
    have hlocation := ((hexact.flag state hmember).mp hinitial).1
    have hstate := (state?_eq_some_iff hexact.distinct).mpr ⟨hmember, rfl⟩
    rw [List.head?_eq_getElem?] at hhead
    refine ⟨[], state.id, state, hhead, hstate, ?_, ?_⟩
    · rw [hlocation]
      exact Automaton.starts_iff.mp hstarts
    · rw [List.take_one, List.head?_eq_getElem?, hhead]
      simp [location?, hstate]
  | succ index ih =>
    obtain ⟨source, target, move, state, before, hsource, htarget, hmove, hstate, hbefore, hleads,
      -⟩ := hreached
    obtain ⟨taken, id, former, hid, hformer, hrun, hlocations⟩ := ih hbefore
    obtain ⟨first, second, edge, hfirst, hsecond, hedge, hfrom, hthere, -⟩ :=
      hexact.joins_of_pathMove hmove
    obtain rfl : source = id := Option.some.inj (hsource.symm.trans hid)
    obtain rfl : first = former := Option.some.inj (hfirst.symm.trans hformer)
    obtain rfl : second = state := Option.some.inj (hsecond.symm.trans hstate)
    refine ⟨taken ++ [(⟨first.location, before⟩, edge)], target, second, htarget, hstate, ?_, ?_⟩
    · rw [hthere]
      exact .step hrun hedge hfrom.symm hleads
    · rw [List.take_add_one, htarget]
      simp only [List.map_append, ← hlocations]
      simp [location?, hstate]

/-! ### Zones along a path -/

/-- The zones, from a position of the path on, hold what is reached at each position. None is empty,
and where they end before the path, nothing is reached any more. -/
structure Reached (graph : AbstractGraph) (path : List StateId) (offset : Nat)
    (zones : List Zone) : Prop where
  length_le : offset + zones.length ≤ path.length
  denotes : ∀ (index : Nat) (zone : Zone), zones[index]? = some zone →
    zone.Denotes graph.automaton.clocks (graph.ReachedAt path (offset + index))
  nonempty : ∀ zone ∈ zones, zone.isBottom = false
  stops : offset + zones.length < path.length →
    ∀ valuation, ¬ graph.ReachedAt path (offset + zones.length) valuation

namespace Reached

/-- Where the zone of the next position is empty, the zones end. -/
theorem of_isBottom {offset : Nat} (hoffset : offset ≤ path.length) {zone : Zone}
    (hzone : zone.Denotes graph.automaton.clocks (graph.ReachedAt path offset))
    (hbottom : zone.isBottom = true) : graph.Reached path offset [] := by
  refine ⟨hoffset, by simp, by simp, fun _ valuation hreached ↦ ?_⟩
  exact (Zone.isBottom_iff hzone.canonical).mp hbottom valuation
    ((hzone.mem_iff valuation).mpr hreached)

theorem cons {offset : Nat} {zone : Zone} {zones : List Zone}
    (hzone : zone.Denotes graph.automaton.clocks (graph.ReachedAt path offset))
    (hbottom : zone.isBottom = false) (hzones : graph.Reached path (offset + 1) zones) :
    graph.Reached path offset (zone :: zones) := by
  have hshift : offset + (zone :: zones).length = offset + 1 + zones.length := by
    rw [List.length_cons]
    omega
  refine ⟨hshift ▸ hzones.length_le, fun index found hfound ↦ ?_,
    List.forall_mem_cons.mpr ⟨hbottom, hzones.nonempty⟩, hshift ▸ hzones.stops⟩
  cases index with
  | zero =>
    obtain rfl : zone = found := by simpa using hfound
    exact hzone
  | succ index =>
    have hlater := hzones.denotes index found (by simpa using hfound)
    rwa [Nat.add_right_comm] at hlater

theorem head {offset : Nat} {zone : Zone} {zones : List Zone}
    (hzones : graph.Reached path offset (zone :: zones)) :
    zone.Denotes graph.automaton.clocks (graph.ReachedAt path offset) ∧ zone.isBottom = false :=
  ⟨hzones.denotes 0 zone rfl, hzones.nonempty zone List.mem_cons_self⟩

theorem tail {offset : Nat} {zone : Zone} {zones : List Zone}
    (hzones : graph.Reached path offset (zone :: zones)) :
    graph.Reached path (offset + 1) zones := by
  have hshift : offset + (zone :: zones).length = offset + 1 + zones.length := by
    rw [List.length_cons]
    omega
  refine ⟨hshift ▸ hzones.length_le, fun index found hfound ↦ ?_,
    fun other hother ↦ hzones.nonempty other (List.mem_cons_of_mem _ hother),
    hshift ▸ hzones.stops⟩
  have hlater := hzones.denotes (index + 1) found (by simpa using hfound)
  rwa [← Nat.add_assoc, Nat.add_right_comm] at hlater

end Reached

/-- The faults that moves along transitions can cause are admitted. -/
def MovesTolerated (may : Fault → Prop) (graph : AbstractGraph) : Prop :=
  ∀ transition ∈ graph.transitions, ∀ move, graph.automaton.move transition.edge = .ok move →
    move.Tolerated may graph.automaton.clocks

theorem movesTolerated (htolerated : graph.automaton.Tolerated may) :
    graph.MovesTolerated may := fun _ _ _ hmove ↦ htolerated.move hmove

theorem reachFrom_yields (hmay : Tolerant may) (hexact : graph.Exact)
    (hmoves : graph.MovesTolerated may) (hlinked : path.IsChain graph.Linked)
    (before : List StateId) {rest : List StateId} {here : StateId}
    (hpath : path = before ++ here :: rest) {current : Zone}
    (hcurrent : current.Denotes graph.automaton.clocks (graph.ReachedAt path before.length)) :
    Yields may (graph.reachFrom current here rest) (graph.Reached path before.length) := by
  -- The part of the path that lies behind grows as the rest shrinks; only its length is used.
  induction rest generalizing before here current with
  | nil =>
    rw [reachFrom]
    by_cases hbottom : current.isBottom = true
    · rw [if_pos hbottom]
      exact Reached.of_isBottom (by simp [hpath]) hcurrent hbottom
    · rw [if_neg hbottom]
      refine Reached.cons hcurrent (by simpa using hbottom) ⟨by simp [hpath], by simp, by simp, ?_⟩
      simp [hpath]
  | cons next rest ih =>
    rw [reachFrom]
    by_cases hbottom : current.isBottom = true
    · rw [if_pos hbottom]
      exact Reached.of_isBottom (by simp [hpath]) hcurrent hbottom
    rw [if_neg hbottom]
    have hhere : path[before.length]? = some here := by simp [hpath]
    have hnext : path[before.length + 1]? = some next := by simp [hpath]
    have hstep : graph.Linked here next := by
      rw [hpath, List.isChain_append_cons_cons] at hlinked
      exact hlinked.2.1
    obtain ⟨move, hmove⟩ := hexact.exists_pathMove hstep
    obtain ⟨-, target, -, -, htarget, -⟩ := hexact.joins_of_pathMove hmove
    obtain ⟨edge, hedge, hedgeMove⟩ := pathMove_eq_ok_iff.mp hmove
    have hmember := mem_of_state? htarget
    have htolerated := hmoves _ (edgeBetween_mem hedge) move hedgeMove
    rw [hmove, pathState_eq_ok_iff.mpr htarget]
    refine (Move.post_yields hmay hcurrent htolerated).bind fun image himage ↦ ?_
    refine (Zone.meet_yields hmay himage (hexact.zoneSound hmember)).bind fun reached hreached ↦ ?_
    have hdenotes : reached.Denotes graph.automaton.clocks
        (graph.ReachedAt path (before ++ [here]).length) := by
      rw [List.length_append, List.length_singleton]
      exact hreached.congr fun valuation ↦ (reachedAt_succ_iff hhere hnext hmove htarget).symm
    refine (ih (before ++ [here]) (by simp [hpath]) hdenotes).bind fun later hlater ↦ ?_
    rw [List.length_append, List.length_singleton] at hlater
    exact Reached.cons hcurrent (by simpa using hbottom) hlater

/-- Along a path from an initial state, at least the first zone is not empty. -/
theorem reachAlong_yields (hmay : Tolerant may) (hexact : graph.Exact)
    (hwell : graph.automaton.WellFormed) (hmoves : graph.MovesTolerated may)
    (hstart : graph.StartsInitial path) (hlinked : path.IsChain graph.Linked) :
    Yields may (graph.reachAlong path) fun zones ↦ graph.Reached path 0 zones ∧ zones ≠ [] := by
  obtain ⟨state, hmember, hhead, hinitial⟩ := hstart
  cases path with
  | nil => simp at hhead
  | cons first rest =>
    obtain rfl : first = state.id := by simpa using hhead
    have hstate := (state?_eq_some_iff hexact.distinct).mpr ⟨hmember, rfl⟩
    rw [reachAlong, pathState_eq_ok_iff.mpr hstate]
    refine (Automaton.initialZone_yields hmay hwell).bind fun start hstart ↦ ?_
    refine (Zone.meet_yields hmay hstart (hexact.zoneSound hmember)).bind fun reached hreached ↦ ?_
    have hdenotes : reached.Denotes graph.automaton.clocks
        (graph.ReachedAt (state.id :: rest) 0) :=
      hreached.congr fun valuation ↦ (reachedAt_zero_iff rfl hstate).symm
    refine (reachFrom_yields hmay hexact hmoves hlinked [] rfl hdenotes).mono
      fun zones hzones ↦ ⟨hzones, ?_⟩
    rintro rfl
    obtain ⟨-, valuation, hmem, hstarts⟩ := (hexact.flag state hmember).mp hinitial
    exact hzones.stops (by simp) valuation ((reachedAt_zero_iff rfl hstate).mpr ⟨hstarts, hmem⟩)

/-! ### Traces -/

/-- The witness of an error holds the error valuations that can be waited into from a zone. There is
none just if nothing in the zone can fail. -/
theorem errorWitness_yields (hmay : Tolerant may) (hwell : graph.automaton.WellFormed)
    {location : Location} {zone : Zone} {valuations : Valuation → Prop}
    (hzone : zone.Denotes graph.automaton.clocks valuations)
    (hallows : ∀ valuation, valuations valuation → graph.automaton.Allows location valuation) :
    Yields may (graph.errorWitness location zone) fun found ↦ found.elim
      (∀ entry final, valuations entry → ¬ graph.automaton.Fails ⟨location, entry⟩ final)
      fun witness ↦ witness.isBottom = false ∧ witness.Denotes graph.automaton.clocks fun final ↦
        ∃ entry, valuations entry ∧ graph.automaton.Fails ⟨location, entry⟩ final := by
  unfold errorWitness
  cases herror : graph.automaton.error? location with
  | none => exact fun entry final _ ↦ Automaton.not_fails herror
  | some condition =>
    refine (Zone.meet_yields hmay hzone (Automaton.approach_denotes hwell herror)).bind
      fun doomed hdoomed ↦ ?_
    by_cases hbottom : doomed.isBottom = true
    · rw [if_pos hbottom]
      intro entry final hentry hfails
      exact (Zone.isBottom_iff hdoomed.canonical).mp hbottom entry ((hdoomed.mem_iff entry).mpr
        ⟨hentry, hallows entry hentry, final, hfails⟩)
    rw [if_neg hbottom]
    obtain ⟨entry, hentry⟩ :=
      (Zone.exists_mem_iff hdoomed.canonical).mp (Bool.not_eq_true _ ▸ hbottom)
    obtain ⟨hentry, hentryAllows, final, hfails⟩ := (hdoomed.mem_iff entry).mp hentry
    obtain ⟨place, hmember, hplace⟩ :=
      Automaton.exists_place (Automaton.mem_locations_iff.mp hentryAllows.mem_locations)
    rw [hplace]
    refine (Zone.elapse_yields hmay hdoomed place.urgent fun constraint hconstraint ↦
      (hwell.invariants place hmember constraint hconstraint).tolerated may).bind
      fun waited hwaited ↦ ?_
    refine (Zone.meet_yields hmay hwaited (Automaton.error_zone_denotes hwell herror)).bind
      fun witness hwitness ↦ ?_
    have hdenotes : witness.Denotes graph.automaton.clocks fun final ↦
        ∃ entry, valuations entry ∧ graph.automaton.Fails ⟨location, entry⟩ final := by
      refine hwitness.congr fun final ↦ ⟨?_, ?_⟩
      · rintro ⟨⟨entry, ⟨hentry, -⟩, hwaits⟩, hfinal⟩
        exact ⟨entry, hentry, (Automaton.fails_iff hplace herror).mpr ⟨hwaits, hfinal⟩⟩
      · rintro ⟨entry, hentry, hfails⟩
        obtain ⟨hwaits, hfinal⟩ := (Automaton.fails_iff hplace herror).mp hfails
        exact ⟨⟨entry, ⟨hentry, hallows entry hentry, final, hfails⟩, hwaits⟩, hfinal⟩
    refine ⟨(Zone.exists_mem_iff hdenotes.canonical).mpr ⟨final, ?_⟩, hdenotes⟩
    exact (hdenotes.mem_iff final).mpr ⟨entry, hentry, hfails⟩

theorem sampleStep_yields {zone : Zone} (location : Location) (hcanonical : zone.Canonical)
    (hbottom : zone.isBottom = false) : Yields may (sampleStep location zone) fun step ↦
      step.location = location ∧ step.valuation ∈ zone := by
  obtain ⟨valuation, hsample⟩ :=
    Option.isSome_iff_exists.mp (Zone.sample_isSome_iff.mpr hbottom)
  rw [sampleStep, hsample]
  exact ⟨rfl, Zone.sample_mem hcanonical hsample⟩

/-- The step stands for a position of the path: it is at the location there, with a valuation that
is reached, or, at the end of a feasible path, with an error valuation that is waited into. -/
def StepAt (graph : AbstractGraph) (path : List StateId) (feasible : Bool) (index : Nat)
    (step : Configuration) : Prop :=
  path[index]?.bind graph.location? = some step.location ∧
    if feasible = true ∧ index + 1 = path.length then
      ∃ entry, graph.ReachedAt path index entry ∧
        graph.automaton.Fails ⟨step.location, entry⟩ step.valuation
    else graph.ReachedAt path index step.valuation

/-- Something that is reached at the end of the path can wait into an error. -/
def Feasible (graph : AbstractGraph) (path : List StateId) : Prop :=
  ∃ index location entry final, index + 1 = path.length ∧
    path[index]?.bind graph.location? = some location ∧ graph.ReachedAt path index entry ∧
    graph.automaton.Fails ⟨location, entry⟩ final

/-- The steps stand for the positions of the path from the offset on, as far as zones were reached;
and the path is called feasible just if all of it was reached and it is. -/
structure Traces (graph : AbstractGraph) (path : List StateId) (offset : Nat) (zones : List Zone)
    (trace : List Configuration × Bool) : Prop where
  length_eq : trace.1.length = zones.length
  step : ∀ (index : Nat) (step : Configuration), trace.1[index]? = some step →
    graph.StepAt path trace.2 (offset + index) step
  feasible_iff : trace.2 = true ↔ offset < path.length ∧ offset + zones.length = path.length ∧
    graph.Feasible path

theorem Traces.nil {offset : Nat} : graph.Traces path offset [] ([], false) :=
  ⟨rfl, by simp, by simp; omega⟩

theorem Traces.cons {offset : Nat} {zone : Zone} {zones : List Zone} {first : Configuration}
    {trace : List Configuration × Bool}
    (hfirst : graph.StepAt path trace.2 offset first) (hmore : offset + 1 < path.length)
    (htrace : graph.Traces path (offset + 1) zones trace) :
    graph.Traces path offset (zone :: zones) (first :: trace.1, trace.2) := by
  refine ⟨by simp [htrace.length_eq], fun index step hstep ↦ ?_, ?_⟩
  · cases index with
    | zero =>
      obtain rfl : first = step := by simpa using hstep
      exact hfirst
    | succ index =>
      have hlater := htrace.step index step (by simpa using hstep)
      rwa [Nat.add_right_comm] at hlater
  · rw [htrace.feasible_iff, List.length_cons]
    constructor
    · rintro ⟨-, hlength, hfeasible⟩
      exact ⟨by omega, by omega, hfeasible⟩
    · rintro ⟨-, hlength, hfeasible⟩
      exact ⟨hmore, by omega, hfeasible⟩

/-- The last step of a path that is reached to its end. -/
theorem traceLast_yields (hmay : Tolerant may) (hexact : graph.Exact)
    (hwell : graph.automaton.WellFormed) {before : List StateId} {id : StateId}
    (hpath : path = before ++ [id]) {state : AbstractState} (hstate : graph.state? id = some state)
    {zone : Zone} (hzones : graph.Reached path before.length [zone]) :
    Yields may (graph.traceAlong [id] [zone]) (graph.Traces path before.length [zone]) := by
  obtain ⟨hzone, hbottom⟩ := hzones.head
  have hmember := mem_of_state? hstate
  have hid : path[before.length]? = some id := by simp [hpath]
  have hlast : before.length + 1 = path.length := by simp [hpath]
  have hlocation : path[before.length]?.bind graph.location? = some state.location := by
    simp [hid, location?, hstate]
  rw [traceAlong, pathState_eq_ok_iff.mpr hstate]
  refine (errorWitness_yields hmay hwell hzone fun valuation hreached ↦
    hexact.allows hmember (hreached.mem_of_state hid hstate)).bind fun found hfound ↦ ?_
  cases found with
  | none =>
    refine (sampleStep_yields state.location hzone.canonical hbottom).bind ?_
    rintro ⟨location, valuation⟩ ⟨rfl, hmem⟩
    refine ⟨rfl, fun index step hstep ↦ ?_, ?_⟩
    · obtain ⟨rfl, rfl⟩ : index = 0 ∧ ⟨state.location, valuation⟩ = step := by
        simpa [List.getElem?_singleton] using hstep
      refine ⟨hlocation, ?_⟩
      rw [if_neg (by simp)]
      exact (hzone.mem_iff valuation).mp hmem
    · refine ⟨by simp, ?_⟩
      rintro ⟨-, -, index, location, entry, final, hindex, hthere, hreached, hfails⟩
      obtain rfl : index = before.length := by omega
      obtain rfl : state.location = location := Option.some.inj (hlocation.symm.trans hthere)
      exact absurd hfails (hfound entry final hreached)
  | some witness =>
    obtain ⟨hwitnessBottom, hwitness⟩ := hfound
    refine (sampleStep_yields state.location hwitness.canonical hwitnessBottom).bind ?_
    rintro ⟨location, valuation⟩ ⟨rfl, hmem⟩
    obtain ⟨entry, hentry, hfails⟩ := (hwitness.mem_iff valuation).mp hmem
    refine ⟨rfl, fun index step hstep ↦ ?_, ?_⟩
    · obtain ⟨rfl, rfl⟩ : index = 0 ∧ ⟨state.location, valuation⟩ = step := by
        simpa [List.getElem?_singleton] using hstep
      refine ⟨hlocation, ?_⟩
      rw [if_pos ⟨rfl, hlast⟩]
      exact ⟨entry, hentry, hfails⟩
    · refine ⟨fun _ ↦ ⟨by omega, hlast, ?_⟩, fun _ ↦ rfl⟩
      exact ⟨_, _, entry, valuation, hlast, hlocation, hentry, hfails⟩

theorem traceAlong_yields (hmay : Tolerant may) (hexact : graph.Exact)
    (hwell : graph.automaton.WellFormed)
    (hstates : ∀ id ∈ path, ∃ state, graph.state? id = some state)
    (before : List StateId) {rest : List StateId} (hpath : path = before ++ rest)
    {zones : List Zone} (hzones : graph.Reached path before.length zones) :
    Yields may (graph.traceAlong rest zones) (graph.Traces path before.length zones) := by
  induction rest generalizing before zones with
  | nil =>
    have hlength := hzones.length_le
    rw [hpath, List.append_nil] at hlength
    obtain rfl : zones = [] := List.length_eq_zero_iff.mp (by omega)
    exact Traces.nil
  | cons id rest ih =>
    cases zones with
    | nil => exact Traces.nil
    | cons zone zones =>
      obtain ⟨state, hstate⟩ := hstates id (by simp [hpath])
      have hid : path[before.length]? = some id := by simp [hpath]
      cases rest with
      | nil =>
        have hlength := hzones.length_le
        rw [hpath, List.length_append, List.length_cons, List.length_singleton] at hlength
        obtain rfl : zones = [] := List.length_eq_zero_iff.mp (by omega)
        exact traceLast_yields hmay hexact hwell hpath hstate hzones
      | cons next rest =>
        obtain ⟨hzone, hbottom⟩ := hzones.head
        have hmore : before.length + 1 < path.length := by simp [hpath]
        rw [traceAlong, pathState_eq_ok_iff.mpr hstate]
        refine (sampleStep_yields state.location hzone.canonical hbottom).bind ?_
        rintro ⟨location, valuation⟩ ⟨rfl, hmem⟩
        have hlater := ih (before ++ [id]) (by simp [hpath]) (by simpa using hzones.tail)
        refine hlater.bind fun trace htrace ↦ ?_
        rw [List.length_append, List.length_singleton] at htrace
        refine Traces.cons ⟨by simp [hid, location?, hstate], ?_⟩ hmore htrace
        rw [if_neg fun hlast ↦ absurd hlast.2 hmore.ne]
        exact (hzone.mem_iff valuation).mp hmem

/-! ### Verdicts -/

/-- The states of a path from an initial state are in the graph. -/
theorem StartsInitial.exists_state (hstart : graph.StartsInitial path)
    (hlinked : path.IsChain graph.Linked) (hexact : graph.Exact) :
    ∀ id ∈ path, ∃ state, graph.state? id = some state := by
  intro id hid
  obtain ⟨index, hindex⟩ := List.getElem?_of_mem hid
  have hmember : id ∈ graph.states.map (·.id) := by
    cases index with
    | zero =>
      obtain ⟨state, hstate, hhead, -⟩ := hstart
      rw [List.head?_eq_getElem?, hindex] at hhead
      exact List.mem_map.mpr ⟨state, hstate, (Option.some.inj hhead).symm⟩
    | succ index =>
      obtain ⟨hlength, rfl⟩ := List.getElem?_eq_some_iff.mp hindex
      exact (hexact.linked_mem (hlinked.getElem index hlength)).2
  obtain ⟨state, hstate, rfl⟩ := List.mem_map.mp hmember
  exact ⟨state, (state?_eq_some_iff hexact.distinct).mpr ⟨hstate, rfl⟩⟩

theorem ErrorPath.exists_state (herror : graph.ErrorPath path) (hexact : graph.Exact) :
    ∀ id ∈ path, ∃ state, graph.state? id = some state :=
  herror.start.exists_state herror.linked hexact

/-- The verdict is the right one on the path: its trace goes as far as valuations are reached, and
it calls the path feasible just if it is. -/
structure Judges (graph : AbstractGraph) (path : List StateId) (zones : List Zone)
    (verdict : Verdict) : Prop where
  reachAlong_eq : graph.reachAlong path = .ok zones
  nonempty : zones ≠ []
  reached : graph.Reached path 0 zones
  traces : graph.Traces path 0 zones (verdict.trace.steps, verdict matches .feasible _)

/-- The replay of a path from an initial state gives the right verdict. -/
theorem StartsInitial.replay_yields (hstart : graph.StartsInitial path)
    (hlinked : path.IsChain graph.Linked) (hmay : Tolerant may) (hexact : graph.Exact)
    (hwell : graph.automaton.WellFormed) (hmoves : graph.MovesTolerated may) :
    Yields may (graph.replay path) fun verdict ↦ ∃ zones, graph.Judges path zones verdict := by
  have hreach := reachAlong_yields hmay hexact hwell hmoves hstart hlinked
  have hstates := hstart.exists_state hlinked hexact
  cases path with
  | nil =>
    obtain ⟨_, _, hhead, -⟩ := hstart
    contradiction
  | cons first rest =>
    refine hreach.bind_eq ?_
    rintro zones hzones ⟨hreached, hnonempty⟩
    rw [if_neg (by simpa using hnonempty)]
    refine (traceAlong_yields hmay hexact hwell hstates [] rfl hreached).bind ?_
    rintro ⟨steps, feasible⟩ htraces
    refine ⟨zones, hzones, hnonempty, hreached, ?_⟩
    cases feasible <;> exact htraces

theorem replay_yields (hmay : Tolerant may) (hexact : graph.Exact)
    (htolerated : graph.automaton.Tolerated may) (herror : graph.ErrorPath path) :
    Yields may (graph.replay path) fun verdict ↦ ∃ zones, graph.Judges path zones verdict :=
  herror.start.replay_yields herror.linked hmay hexact htolerated.wellFormed
    (movesTolerated htolerated)

/-- The steps of a trace are at the locations of the path. -/
theorem Traces.locations_eq {zones : List Zone} {trace : List Configuration × Bool}
    (htraces : graph.Traces path 0 zones trace) {count : Nat} (hcount : count ≤ trace.1.length) :
    ((trace.1.take count).map (·.location)).map some = (path.take count).map graph.location? := by
  refine List.ext_getElem? fun index ↦ ?_
  simp only [List.getElem?_map, List.getElem?_take]
  by_cases hindex : index < count
  · have hstep := List.getElem?_eq_getElem (hindex.trans_le hcount)
    obtain ⟨hlocation, -⟩ := htraces.step index _ hstep
    rw [Nat.zero_add] at hlocation
    obtain ⟨id, hid, hthere⟩ := Option.bind_eq_some_iff.mp hlocation
    rw [if_pos hindex, if_pos hindex, hstep, hid, Option.map_some, Option.map_some,
      Option.map_some, hthere]
  · rw [if_neg hindex, if_neg hindex]
    rfl

/-- A run to something that is reached at a position passes through the locations of the trace. -/
theorem Traces.exists_run (hexact : graph.Exact) (hstart : graph.StartsInitial path)
    {zones : List Zone} {trace : List Configuration × Bool}
    (htraces : graph.Traces path 0 zones trace) {index : Nat} {step : Configuration}
    (hstep : trace.1[index]? = some step) {valuation : Valuation}
    (hreached : graph.ReachedAt path index valuation) :
    ∃ taken, graph.automaton.Run taken ⟨step.location, valuation⟩ ∧
      taken.map (·.1.location) ++ [step.location] =
        (trace.1.take (index + 1)).map (·.location) := by
  obtain ⟨taken, id, state, hid, hstate, hrun, hlocations⟩ := hreached.exists_run hexact hstart
  obtain ⟨hlength, -⟩ := List.getElem?_eq_some_iff.mp hstep
  have hsame : state.location = step.location := by
    have hthere := (htraces.step index step hstep).1
    simpa [hid, location?, hstate] using hthere
  rw [← htraces.locations_eq hlength] at hlocations
  rw [← hsame]
  exact ⟨taken, hrun, List.map_injective_iff.mpr (Option.some_injective _) hlocations⟩

/-- The trace of a feasible path shows an error. -/
theorem Judges.violates (hexact : graph.Exact) (herror : graph.ErrorPath path) {zones : List Zone}
    {trace : Trace} (hjudges : graph.Judges path zones (.feasible trace)) :
    graph.automaton.Violates trace := by
  have htraces : graph.Traces path 0 zones (trace.steps, true) := hjudges.traces
  obtain ⟨-, hlength, -⟩ := htraces.feasible_iff.mp rfl
  have hsteps : trace.steps.length = zones.length := htraces.length_eq
  have hpos : 0 < trace.steps.length := hsteps ▸ List.length_pos_iff.mpr hjudges.nonempty
  have hnonempty : trace.steps ≠ [] := List.length_pos_iff.mp hpos
  refine ⟨hnonempty, ?_, ?_⟩
  · have hlast : trace.steps[trace.steps.length - 1]? = some (trace.steps.getLast hnonempty) := by
      rw [← List.getLast?_eq_getElem?, List.getLast?_eq_some_getLast hnonempty]
    obtain ⟨-, hend⟩ := htraces.step _ _ hlast
    rw [Nat.zero_add, if_pos ⟨rfl, by omega⟩] at hend
    obtain ⟨entry, hreached, hfails⟩ := hend
    obtain ⟨taken, hrun, hlocations⟩ := htraces.exists_run hexact herror.start hlast hreached
    refine ⟨taken, _, _, hrun, hfails, ?_, ?_⟩
    · rw [hlocations, List.take_of_length_le (by dsimp only; omega)]
    · rw [List.getLast?_eq_some_getLast hnonempty]
  · intro index step hstep hmore
    obtain ⟨-, hreached⟩ := htraces.step index step hstep
    rw [Nat.zero_add, if_neg (by omega)] at hreached
    exact htraces.exists_run hexact herror.start hstep hreached

end AbstractGraph

end TimedSafety
