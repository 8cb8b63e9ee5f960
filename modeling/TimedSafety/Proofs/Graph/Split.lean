import TimedSafety.Proofs.Graph.Exact

/-!
Splitting a state keeps a graph exact. The states other than the split one stay as they are, and the
pieces take its place at its location. A transition that touches a piece stems from one that touched
the split state, so deciding those anew for every piece finds them all.
-/

set_option autoImplicit false

namespace TimedSafety.AbstractGraph

variable {may : Fault → Prop} {graph : AbstractGraph}

/-- The graph without a state and the transitions that touch it. -/
def without (graph : AbstractGraph) (id : StateId) : AbstractGraph :=
  { graph with
    states := graph.states.filter (·.id ≠ id)
    transitions := (graph.transitions.partition fun transition ↦
      transition.source = id ∨ transition.target = id).2 }

/-! ### States -/

/-- The states around a state, and those that are left without it. -/
theorem StatesExact.exists_around (hexact : graph.StatesExact) {id : StateId} {old : AbstractState}
    (hold : graph.state? id = some old) : ∃ front back,
      graph.states = front ++ old :: back ∧ (graph.without id).states = front ++ back := by
  obtain ⟨hmem, rfl⟩ := (state?_eq_some_iff hexact.distinct).mp hold
  obtain ⟨front, back, hstates⟩ := List.append_of_mem hmem
  have hdistinct := hexact.distinct
  rw [hstates, List.map_append, List.map_cons, List.nodup_middle, List.nodup_cons] at hdistinct
  have hothers : ∀ state ∈ front ++ back, state.id ≠ old.id := by
    intro state hstate hsame
    refine hdistinct.1 ?_
    rw [← List.map_append, ← hsame]
    exact List.mem_map_of_mem hstate
  refine ⟨front, back, hstates, ?_⟩
  have hkept : ∀ states : List AbstractState, (∀ state ∈ states, state.id ≠ old.id) →
      states.filter (·.id ≠ old.id) = states := by
    intro states hstates
    refine List.filter_eq_self.mpr fun state hstate ↦ ?_
    simpa using hstates state hstate
  rw [without, hstates, List.filter_append, List.filter_cons_of_neg (by simp),
    hkept front fun state hstate ↦ hothers state (List.mem_append_left _ hstate),
    hkept back fun state hstate ↦ hothers state (List.mem_append_right _ hstate)]

/-- Pieces that tile the zone of a state take its place in an exact partition. -/
theorem StatesExact.divide (hexact : graph.StatesExact) {id : StateId} {old : AbstractState}
    (hold : graph.state? id = some old) {zones : List Zone}
    (htiles : Tiles zones graph.automaton.clocks (· ∈ old.zone)) {grown : AbstractGraph}
    {pieces : List AbstractState}
    (hadds : (graph.without id).Adds grown old.location zones pieces) : grown.StatesExact := by
  obtain ⟨front, back, hstates, hwithout⟩ := hexact.exists_around hold
  have hsublist : (graph.without id).states.Sublist graph.states := List.filter_sublist
  have hfresh : ∀ state ∈ (graph.without id).states,
      state.id.number < (graph.without id).nextId.number := fun state hstate ↦
    hexact.fresh state (hsublist.subset hstate)
  have hclocks : grown.automaton = graph.automaton := hadds.automaton_eq
  refine ⟨hadds.distinct_append ((hsublist.map _).nodup hexact.distinct) hfresh,
    hadds.fresh_append hfresh, fun here ↦ ?_, ?_⟩
  · have holdTiles := hexact.tiles here
    rw [hclocks, hadds.zonesAt_append]
    rw [zonesAt, statesAt] at holdTiles ⊢
    rw [hstates, List.filter_append, List.map_append] at holdTiles
    rw [hwithout, List.filter_append, List.map_append]
    by_cases hhere : here = old.location
    · rw [if_pos hhere]
      rw [List.filter_cons_of_pos (by simp [hhere]), List.map_cons] at holdTiles
      refine (holdTiles.remove.append htiles fun valuation hrest ↦ hrest.2).congr
        fun valuation ↦ ?_
      have hinside : valuation ∈ old.zone → graph.automaton.Allows here valuation := fun hmem ↦
        holdTiles.subset (List.mem_append_right _ List.mem_cons_self) hmem
      by_cases hmem : valuation ∈ old.zone
      · simp [hmem, hinside hmem]
      · simp [hmem]
    · rw [if_neg hhere, List.append_nil]
      rwa [List.filter_cons_of_neg (by simpa using Ne.symm hhere)] at holdTiles
  · rw [hadds.states_eq, hclocks]
    exact List.forall_mem_append.mpr
      ⟨fun state hstate ↦ hexact.flag state (hsublist.subset hstate), hadds.flag⟩

/-! ### Transitions -/

theorem mem_without_transitions_iff {id : StateId} {transition : Transition} :
    transition ∈ (graph.without id).transitions ↔
      transition ∈ graph.transitions ∧ transition.source ≠ id ∧ transition.target ≠ id := by
  simp [without]

theorem mem_without_states_iff {id : StateId} {state : AbstractState} :
    state ∈ (graph.without id).states ↔ state ∈ graph.states ∧ state.id ≠ id := by
  simp [without]

/-- A state stands in for one it was cut from, or for itself. -/
theorem mem_standIns_iff {current : AbstractGraph}
    (hdistinct : (current.states.map (·.id)).Nodup) {split key : StateId}
    {pieces : List AbstractState} {state : AbstractState} :
    state ∈ current.standIns split pieces key ↔
      (key = split ∧ state ∈ pieces) ∨ (key ≠ split ∧ state ∈ current.states ∧ state.id = key) := by
  unfold standIns
  by_cases hkey : key = split
  · simp [hkey]
  · rw [if_neg hkey, Option.mem_toList, state?_eq_some_iff hdistinct]
    simp [hkey]

/-- The states of the divided graph, each with the state it stands in for. -/
def StandsIn (graph : AbstractGraph) (old : AbstractState) (pieces : List AbstractState)
    (state origin : AbstractState) : Prop :=
  (origin = old ∧ state ∈ pieces) ∨ (origin.id ≠ old.id ∧ origin ∈ graph.states ∧ state = origin)

/-- A transition between states that stand in for the ends of another one, along its edge. -/
def Renews (graph : AbstractGraph) (old : AbstractState) (pieces : List AbstractState)
    (touched transition : Transition) : Prop :=
  ∃ source' ∈ graph.states, ∃ target' ∈ graph.states, ∃ source target,
    source'.id = touched.source ∧ target'.id = touched.target ∧
    graph.StandsIn old pieces source source' ∧ graph.StandsIn old pieces target target' ∧
    transition = ⟨source.id, touched.edge, target.id⟩ ∧
      Joins graph.automaton touched.edge source target

/-- What a division does to the states, as far as transitions are concerned. -/
structure Division (graph grown : AbstractGraph) (old : AbstractState)
    (pieces : List AbstractState) : Prop where
  mem_old : old ∈ graph.states
  automaton_eq : grown.automaton = graph.automaton
  mem_states_iff : ∀ state, state ∈ grown.states ↔
    state ∈ pieces ∨ (state ∈ graph.states ∧ state.id ≠ old.id)
  location_eq : ∀ piece ∈ pieces, piece.location = old.location
  inside : ∀ piece ∈ pieces, ∀ valuation ∈ piece.zone, valuation ∈ old.zone

namespace Division

variable {grown : AbstractGraph} {old : AbstractState} {pieces : List AbstractState}
  (hdivision : graph.Division grown old pieces)

include hdivision

theorem exists_origin {state : AbstractState} (hstate : state ∈ grown.states) :
    ∃ origin ∈ graph.states, graph.StandsIn old pieces state origin := by
  rcases (hdivision.mem_states_iff state).mp hstate with hpiece | ⟨hother, hid⟩
  · exact ⟨old, hdivision.mem_old, Or.inl ⟨rfl, hpiece⟩⟩
  · exact ⟨state, hother, Or.inr ⟨hid, hother, rfl⟩⟩

theorem mem_of_standsIn {state origin : AbstractState}
    (hstands : graph.StandsIn old pieces state origin) : state ∈ grown.states := by
  rcases hstands with ⟨-, hpiece⟩ | ⟨hid, hmem, rfl⟩
  · exact (hdivision.mem_states_iff state).mpr (Or.inl hpiece)
  · exact (hdivision.mem_states_iff state).mpr (Or.inr ⟨hmem, hid⟩)

theorem location_eq_origin {state origin : AbstractState}
    (hstands : graph.StandsIn old pieces state origin) : state.location = origin.location := by
  rcases hstands with ⟨rfl, hpiece⟩ | ⟨-, -, rfl⟩
  · exact hdivision.location_eq state hpiece
  · rfl

theorem mem_origin {state origin : AbstractState}
    (hstands : graph.StandsIn old pieces state origin) {valuation : Valuation}
    (hmem : valuation ∈ state.zone) : valuation ∈ origin.zone := by
  rcases hstands with ⟨rfl, hpiece⟩ | ⟨-, -, rfl⟩
  · exact hdivision.inside state hpiece valuation hmem
  · exact hmem

/-- Where pieces are joined, so are the states they were cut from. -/
theorem joins_origin {edge : EdgeId} {source target source' target' : AbstractState}
    (hsource : graph.StandsIn old pieces source source')
    (htarget : graph.StandsIn old pieces target target')
    (hjoins : Joins graph.automaton edge source target) :
    Joins graph.automaton edge source' target' := by
  obtain ⟨move, hmove, hsourceLocation, htargetLocation, before, hbefore, after, hafter, hleads⟩ :=
    hjoins
  exact ⟨move, hmove, (hdivision.location_eq_origin hsource).symm.trans hsourceLocation,
    (hdivision.location_eq_origin htarget).symm.trans htargetLocation,
    before, hdivision.mem_origin hsource hbefore, after, hdivision.mem_origin htarget hafter,
    hleads⟩

/-- The candidates for an end of a transition are the states that stand in for its former end. -/
theorem mem_standIns_iff_standsIn (hexact : graph.StatesExact)
    (hdistinct : (grown.states.map (·.id)).Nodup) {current : AbstractGraph}
    (hcurrent : current.states = grown.states) {state origin : AbstractState}
    (horigin : origin ∈ graph.states) :
    state ∈ current.standIns old.id pieces origin.id ↔
      graph.StandsIn old pieces state origin := by
  rw [mem_standIns_iff (by rwa [hcurrent]), hcurrent]
  constructor
  · rintro (⟨hid, hpiece⟩ | ⟨hid, hstate, hsame⟩)
    · exact Or.inl ⟨hexact.eq_of_id horigin hdivision.mem_old hid, hpiece⟩
    · refine Or.inr ⟨hid, horigin, ?_⟩
      have horiginGrown := hdivision.mem_of_standsIn (Or.inr ⟨hid, horigin, rfl⟩)
      exact List.inj_on_of_nodup_map hdistinct hstate horiginGrown hsame
  · rintro (⟨rfl, hpiece⟩ | ⟨hid, hmem, rfl⟩)
    · exact Or.inl ⟨rfl, hpiece⟩
    · exact Or.inr ⟨hid, hdivision.mem_of_standsIn (Or.inr ⟨hid, hmem, rfl⟩), rfl⟩

/-- Deciding a transition anew for the states that stand in for its ends. -/
theorem reconnect_yields (hmay : Tolerant may) (htolerated : graph.automaton.Tolerated may)
    (hexact : graph.Exact) (hgrown : grown.StatesExact) {current : AbstractGraph}
    {gained : Transition → Prop} (hcurrent : grown.Gains current gained) {touched : Transition}
    (htouched : touched ∈ graph.transitions) :
    Yields may (current.connectAll touched.edge
        (current.standIns old.id pieces touched.source)
        (current.standIns old.id pieces touched.target))
      (current.Gains · (graph.Renews old pieces touched)) := by
  obtain ⟨source', hsource', target', htarget', hsourceId, htargetId, move, hmove, hsourceLocation,
    htargetLocation, -⟩ := (hexact.transition_iff touched).mp htouched
  have hautomaton : current.automaton = graph.automaton :=
    hcurrent.automaton_eq.trans hdivision.automaton_eq
  have hstands : ∀ state origin, origin ∈ graph.states →
      (state ∈ current.standIns old.id pieces origin.id ↔
        graph.StandsIn old pieces state origin) := fun state origin horigin ↦
    hdivision.mem_standIns_iff_standsIn hexact.toStatesExact hgrown.distinct hcurrent.states_eq
      horigin
  have hsound : ∀ {origin : AbstractState}, origin ∈ graph.states →
      ∀ state ∈ current.standIns old.id pieces origin.id,
        ZoneSound current.automaton.clocks state := by
    intro origin horigin state hstate
    rw [hcurrent.automaton_eq]
    exact hgrown.zoneSound (hdivision.mem_of_standsIn ((hstands state origin horigin).mp hstate))
  rw [← hsourceId, ← htargetId]
  refine (connectAll_yields hmay (by rwa [hautomaton]) (by rwa [hautomaton]) (hsound hsource')
    (hsound htarget')).mono fun after hafter ↦ hafter.congr fun transition ↦ ?_
  constructor
  · rintro ⟨source, hsource, target, htarget, hsame, hreaches⟩
    have hsourceStands := (hstands source source' hsource').mp hsource
    have htargetStands := (hstands target target' htarget').mp htarget
    exact ⟨source', hsource', target', htarget', source, target, hsourceId, htargetId,
      hsourceStands, htargetStands, hsame, move, hmove,
      (hdivision.location_eq_origin hsourceStands).trans hsourceLocation,
      (hdivision.location_eq_origin htargetStands).trans htargetLocation, hreaches⟩
  · rintro ⟨source'', hsource'', target'', htarget'', source, target, hsourceId', htargetId',
      hsource, htarget, hsame, found, hfound, -, -, hreaches⟩
    obtain rfl := hexact.eq_of_id hsource' hsource'' (hsourceId.trans hsourceId'.symm)
    obtain rfl := hexact.eq_of_id htarget' htarget'' (htargetId.trans htargetId'.symm)
    obtain rfl : move = found := Except.ok.inj (hmove.symm.trans hfound)
    exact ⟨source, (hstands source source' hsource').mpr hsource, target,
      (hstands target target' htarget').mpr htarget, hsame, hreaches⟩

/-- With the untouched transitions kept and the touched ones decided anew, the graph is exact. -/
theorem transition_iff (hexact : graph.Exact) (transition : Transition) :
    (transition ∈ (graph.without old.id).transitions ∨
      ∃ touched ∈ graph.transitions, (touched.source = old.id ∨ touched.target = old.id) ∧
        graph.Renews old pieces touched transition) ↔
    ∃ source ∈ grown.states, ∃ target ∈ grown.states, source.id = transition.source ∧
      target.id = transition.target ∧ Joins graph.automaton transition.edge source target := by
  constructor
  · rintro (hkept | ⟨touched, -, -, source', -, target', -, source, target, -, -, hsource, htarget,
      rfl, hjoins⟩)
    · obtain ⟨hmem, hsourceNe, htargetNe⟩ := mem_without_transitions_iff.mp hkept
      obtain ⟨source, hsource, target, htarget, hsourceId, htargetId, hjoins⟩ :=
        (hexact.transition_iff transition).mp hmem
      refine ⟨source, (hdivision.mem_states_iff source).mpr (Or.inr ⟨hsource, ?_⟩), target,
        (hdivision.mem_states_iff target).mpr (Or.inr ⟨htarget, ?_⟩), hsourceId, htargetId, hjoins⟩
      · rwa [hsourceId]
      · rwa [htargetId]
    · exact ⟨source, hdivision.mem_of_standsIn hsource, target, hdivision.mem_of_standsIn htarget,
        rfl, rfl, hjoins⟩
  · rintro ⟨source, hsource, target, htarget, hsourceId, htargetId, hjoins⟩
    obtain ⟨source', hsource', hsourceStands⟩ := hdivision.exists_origin hsource
    obtain ⟨target', htarget', htargetStands⟩ := hdivision.exists_origin htarget
    -- A piece holds less than the state it was cut from, so a transition between stand-ins was one
    -- between their origins, and looking at the former neighbours is enough.
    have hmem := (hexact.transition_iff ⟨source'.id, transition.edge, target'.id⟩).mpr
      ⟨source', hsource', target', htarget', rfl, rfl,
        hdivision.joins_origin hsourceStands htargetStands hjoins⟩
    by_cases htouches : source'.id = old.id ∨ target'.id = old.id
    · refine Or.inr ⟨_, hmem, htouches, source', hsource', target', htarget', source, target, rfl,
        rfl, hsourceStands, htargetStands, ?_, hjoins⟩
      rw [hsourceId, htargetId]
    · -- Neither end was cut, so both states are the ones that were there before.
      have hsame : ∀ {state origin : AbstractState}, origin.id ≠ old.id →
          graph.StandsIn old pieces state origin → state = origin := by
        rintro state origin hne (⟨rfl, -⟩ | ⟨-, -, hsame⟩)
        · exact absurd rfl hne
        · exact hsame
      obtain ⟨hsourceNe, htargetNe⟩ := not_or.mp htouches
      obtain rfl := hsame hsourceNe hsourceStands
      obtain rfl := hsame htargetNe htargetStands
      refine Or.inl (mem_without_transitions_iff.mpr ?_)
      rw [hsourceId, htargetId] at hmem
      exact ⟨hmem, hsourceId ▸ hsourceNe, htargetId ▸ htargetNe⟩

end Division

/-- The transitions that touch a state. -/
def touching (graph : AbstractGraph) (id : StateId) : List Transition :=
  (graph.transitions.partition fun transition ↦
    transition.source = id ∨ transition.target = id).1

theorem mem_touching_iff {id : StateId} {transition : Transition} :
    transition ∈ graph.touching id ↔
      transition ∈ graph.transitions ∧ (transition.source = id ∨ transition.target = id) := by
  simp [touching]

/-- A split removes the state, adds the pieces, and decides the touching transitions anew. -/
theorem splitState_eq {id : StateId} {old : AbstractState} (hold : graph.state? id = some old)
    (zones : List Zone) : graph.splitState id zones = (do
      let added ← (graph.without id).addStates old.location zones
      let connected ← (graph.touching id).foldlM (fun current transition ↦
        current.connectAll transition.edge
          (current.standIns id added.2 transition.source)
          (current.standIns id added.2 transition.target)) added.1
      return (connected, added.2)) := by
  rw [splitState, hold]
  rfl

/-- The graph after replacing a state by pieces with new numbers that tile its zone. -/
structure Divides (graph after : AbstractGraph) (old : AbstractState)
    (pieces : List AbstractState) : Prop where
  mem_old : old ∈ graph.states
  automaton_eq : after.automaton = graph.automaton
  precisions_eq : after.precisions = graph.precisions
  states_eq : after.states = graph.states.filter (·.id ≠ old.id) ++ pieces
  tiles : Tiles (pieces.map (·.zone)) graph.automaton.clocks (· ∈ old.zone)
  location_eq : ∀ piece ∈ pieces, piece.location = old.location
  le_id : ∀ piece ∈ pieces, graph.nextId.number ≤ piece.id.number
  le_nextId : graph.nextId.number ≤ after.nextId.number

/-- Splitting a state into a tiling of its zone keeps the graph exact. -/
theorem splitState_yields (hmay : Tolerant may) (hexact : graph.Exact)
    (htolerated : graph.automaton.Tolerated may) {id : StateId} {old : AbstractState}
    (hold : graph.state? id = some old) {zones : List Zone}
    (htiles : Tiles zones graph.automaton.clocks (· ∈ old.zone)) :
    Yields may (graph.splitState id zones) fun result ↦ result.1.Exact ∧
      graph.Divides result.1 old result.2 ∧ result.2.map (·.zone) = zones := by
  obtain ⟨hmem, hid⟩ := (state?_eq_some_iff hexact.distinct).mp hold
  subst hid
  rw [splitState_eq hold]
  have hwell : (graph.without old.id).automaton.WellFormed := htolerated.wellFormed
  refine (addStates_yields hmay old.location (fun zone hzone ↦ htiles.denotes hzone) hwell
    rfl).bind ?_
  rintro ⟨grown, pieces⟩ hadds
  have hgrown := hexact.toStatesExact.divide hold htiles hadds
  have hdivision : graph.Division grown old pieces := by
    refine ⟨hmem, hadds.automaton_eq, fun state ↦ ?_, hadds.location_eq, ?_⟩
    · rw [hadds.states_eq, List.mem_append, mem_without_states_iff, or_comm]
    · intro piece hpiece valuation hvaluation
      refine htiles.subset ?_ hvaluation
      rw [← hadds.zones_eq]
      exact List.mem_map_of_mem hpiece
  refine (Gains.foldlM (graph.Renews old pieces) ?_).bind fun connected hconnected ↦ ?_
  · rintro touched htouched current ⟨_, hcurrent⟩
    exact hdivision.reconnect_yields hmay htolerated hexact hgrown hcurrent
      (mem_touching_iff.mp htouched).1
  · refine ⟨⟨hconnected.statesExact hgrown, fun transition ↦ ?_⟩, ?_, hadds.zones_eq⟩
    swap
    · obtain ⟨_, rfl, -⟩ := hconnected
      exact ⟨hmem, hadds.automaton_eq, hadds.precisions_eq, hadds.states_eq,
        hadds.zones_eq ▸ htiles, hadds.location_eq, hadds.le_id, hadds.le_nextId⟩
    rw [hconnected.automaton_eq, hconnected.states_eq, hdivision.automaton_eq,
      ← hdivision.transition_iff hexact]
    obtain ⟨transitions, rfl, htransitions⟩ := hconnected
    rw [htransitions, hadds.transitions_eq]
    simp only [mem_touching_iff, and_assoc]

end TimedSafety.AbstractGraph
