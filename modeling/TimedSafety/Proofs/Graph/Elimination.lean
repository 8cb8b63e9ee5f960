import TimedSafety.Proofs.Graph.Interpolation
import TimedSafety.Proofs.Graph.Lineage

/-!
How refinement by forward zones eliminates a path. The zone reached at a position lies within the
state there (`ForwardZones.lieAlong`), and after the state was cut by its atoms it is the zone of
one piece (`Carved.zone_eq`). Where the zones end, the path can not go on: the next image does not
meet the next state, or the last zone does not wait into an error. So the piece has no transition
along the path, or is no error state. If all positions were cut, the only pieces that a path from an
initial state can follow are those of the zones.
-/

set_option autoImplicit false

namespace TimedSafety.AbstractGraph

variable {automaton : Automaton} {graph after : AbstractGraph} {path : List StateId}

theorem meets_of_meet {zone other common : Zone} (hmeet : zone.meet other = .ok common) :
    zone.meets other = .ok (!common.isBottom) := by
  rw [Zone.meets, hmeet]
  rfl

/-! ### Forward zones -/

/-- The zone is what a zone at one state reaches in another state, along the smallest edge. -/
def StepsTo (graph : AbstractGraph) (zone : Zone) (source target : StateId) (reached : Zone) :
    Prop :=
  ∃ edge move image state, graph.edgeBetween source target = some edge ∧
    graph.automaton.move edge = .ok move ∧ move.post zone = .ok image ∧
    graph.state? target = some state ∧ image.meet state.zone = .ok reached

/-- The zones reached from a zone at one state, along the states that follow it. They end before the
first that is empty. -/
inductive Forward (graph : AbstractGraph) : Zone → StateId → List StateId → List Zone → Prop
  | stop {current : Zone} {here : StateId} {rest : List StateId}
      (hbottom : current.isBottom = true) : Forward graph current here rest []
  | last {current : Zone} {here : StateId} (hsome : current.isBottom = false) :
      Forward graph current here [] [current]
  | step {current reached : Zone} {here next : StateId} {rest : List StateId} {later : List Zone}
      (hsome : current.isBottom = false) (hsteps : graph.StepsTo current here next reached)
      (hlater : Forward graph reached next rest later) :
      Forward graph current here (next :: rest) (current :: later)

theorem forward_of_reachFrom {current : Zone} {here : StateId} {rest : List StateId}
    {zones : List Zone} (hreach : graph.reachFrom current here rest = .ok zones) :
    graph.Forward current here rest zones := by
  have hyields : Yields (fun _ ↦ True) (graph.reachFrom current here rest)
      (graph.Forward current here rest) := by
    clear hreach
    induction rest generalizing current here with
    | nil =>
      rw [reachFrom]
      split_ifs with hbottom
      · exact .stop hbottom
      · exact .last (Bool.not_eq_true _ ▸ hbottom)
    | cons next rest ih =>
      rw [reachFrom]
      split_ifs with hbottom
      · exact .stop hbottom
      refine (Yields.any (graph.pathMove here next)).bind_eq fun move hmove _ ↦ ?_
      refine (Yields.any (move.post current)).bind_eq fun image himage _ ↦ ?_
      refine (Yields.any (graph.pathState next)).bind_eq fun state hstate _ ↦ ?_
      refine (Yields.any (image.meet state.zone)).bind_eq fun reached hreached _ ↦ ?_
      refine (@ih reached next).bind fun later hlater ↦ ?_
      obtain ⟨edge, hedge, hmove⟩ := pathMove_eq_ok_iff.mp hmove
      exact .step (Bool.not_eq_true _ ▸ hbottom) ⟨edge, move, image, state, hedge, hmove, himage,
        pathState_eq_ok_iff.mp hstate, hreached⟩ hlater
  exact hyields.result hreach

namespace Forward

variable {current : Zone} {here : StateId} {rest : List StateId} {zones : List Zone}

theorem head_eq (hforward : graph.Forward current here rest zones) :
    zones[0]? = if current.isBottom then none else some current := by
  cases hforward with
  | stop hbottom => simp [hbottom]
  | last hsome => simp [hsome]
  | step hsome => simp [hsome]

theorem isBottom_eq (hforward : graph.Forward current here rest zones) :
    ∀ zone ∈ zones, zone.isBottom = false := by
  induction hforward with
  | stop => simp
  | last hsome => simpa using hsome
  | step hsome _ _ ih => exact List.forall_mem_cons.mpr ⟨hsome, ih⟩

/-- From the zone at a position there is a step to the next state. Where it reaches nothing, the
zones end. -/
theorem step_at (hforward : graph.Forward current here rest zones) {index : Nat} {zone : Zone}
    (hzone : zones[index]? = some zone) {target : StateId}
    (htarget : (here :: rest)[index + 1]? = some target) :
    ∃ source reached, (here :: rest)[index]? = some source ∧
      graph.StepsTo zone source target reached ∧
        zones[index + 1]? = if reached.isBottom then none else some reached := by
  induction hforward generalizing index with
  | stop => simp at hzone
  | last => simp at htarget
  | @step current reached here next rest later hsome hsteps hlater ih =>
    cases index with
    | zero =>
      obtain rfl : current = zone := by simpa using hzone
      obtain rfl : next = target := by simpa using htarget
      exact ⟨here, reached, rfl, hsteps, by simpa using hlater.head_eq⟩
    | succ index => exact ih (by simpa using hzone) (by simpa using htarget)

end Forward

/-- The zones along a whole path, from the starting valuations in its first state on. -/
structure ForwardZones (graph : AbstractGraph) (path : List StateId) (zones : List Zone) :
    Prop where
  start : ∀ zone, zones[0]? = some zone → ∃ id state initial, path[0]? = some id ∧
    graph.state? id = some state ∧ graph.automaton.initialZone = .ok initial ∧
      initial.meet state.zone = .ok zone
  step : ∀ {index zone target}, zones[index]? = some zone → path[index + 1]? = some target →
    ∃ source reached, path[index]? = some source ∧ graph.StepsTo zone source target reached ∧
      zones[index + 1]? = if reached.isBottom then none else some reached
  isBottom_eq : ∀ zone ∈ zones, zone.isBottom = false

theorem forwardZones_of_reachAlong {zones : List Zone}
    (hreach : graph.reachAlong path = .ok zones) : graph.ForwardZones path zones := by
  have hyields : Yields (fun _ ↦ True) (graph.reachAlong path) (graph.ForwardZones path) := by
    cases path with
    | nil => trivial
    | cons first rest =>
      refine (Yields.any (graph.pathState first)).bind_eq fun state hstate _ ↦ ?_
      refine (Yields.any graph.automaton.initialZone).bind_eq fun initial hinitial _ ↦ ?_
      refine (Yields.any (initial.meet state.zone)).bind_eq fun reached hreached _ ↦ ?_
      refine .of_forall fun zones hzones ↦ ?_
      have hforward := forward_of_reachFrom hzones
      refine ⟨fun zone hzone ↦ ?_, fun hzone htarget ↦ hforward.step_at hzone htarget,
        hforward.isBottom_eq⟩
      rw [hforward.head_eq] at hzone
      split_ifs at hzone
      obtain rfl := Option.some.inj hzone
      exact ⟨first, state, initial, rfl, pathState_eq_ok_iff.mp hstate, hinitial, hreached⟩
  exact hyields.result hreach

/-- An image that was computed is level, whatever the resets along its edge are. -/
theorem level_of_post (hwell : automaton.WellFormed) {edge : EdgeId} {move : Move}
    (hmove : automaton.move edge = .ok move) {zone image : Zone}
    (hzone : zone.Denotes automaton.clocks (· ∈ zone)) (himage : move.post zone = .ok image) :
    image.clocks = automaton.clocks ∧ image.matrix.Level := by
  have hwithin : move.Within zone.clocks := hzone.clocks_eq ▸ hwell.moveWithin hmove
  obtain ⟨hclocks, hlevel⟩ := (Move.post_level tolerant_true hzone.canonical.wellFormed.level
    hwithin fun _ _ _ _ _ ↦ trivial).result himage
  exact ⟨hclocks.trans hzone.clocks_eq, hlevel⟩

namespace ForwardZones

variable {zones : List Zone} (hforward : graph.ForwardZones path zones)
  (hexact : graph.StatesExact) (hwell : graph.automaton.WellFormed)

include hforward hexact hwell

/-- The first zone holds the starting valuations in the first state. -/
theorem start_denotes {zone : Zone} (hzone : zones[0]? = some zone) {id : StateId}
    {state : AbstractState} (hid : path[0]? = some id) (hstate : graph.state? id = some state) :
    zone.Denotes graph.automaton.clocks fun valuation ↦
      graph.automaton.Starts valuation ∧ valuation ∈ state.zone := by
  obtain ⟨found, first, initial, hfound, hfirst, hinitial, hmeet⟩ := hforward.start zone hzone
  obtain rfl : id = found := Option.some.inj (hid.symm.trans hfound)
  obtain rfl : state = first := Option.some.inj (hstate.symm.trans hfirst)
  have hstarts := (Automaton.initialZone_yields tolerant_true hwell).result hinitial
  exact (Zone.meet_yields tolerant_true hstarts
    (hexact.zoneSound (mem_of_state? hstate))).result hmeet

/-- Each zone is in order and lies within the state at its position. -/
theorem lieAlong (hlength : zones.length ≤ path.length) : graph.LieAlong path zones := by
  intro index
  induction index with
  | zero =>
    intro zone hzone
    obtain ⟨id, state, -, hid, hstate, -⟩ := hforward.start zone hzone
    have hdenotes := hforward.start_denotes hexact hwell hzone hid hstate
    exact ⟨hdenotes.members, fun valuation hmem ↦
      ⟨id, state, hid, hstate, ((hdenotes.mem_iff valuation).mp hmem).2⟩⟩
  | succ index ih =>
    intro zone hzone
    have hbelow := (List.getElem?_eq_some_iff.mp hzone).1
    have htarget := List.getElem?_eq_getElem (hbelow.trans_le hlength)
    have hbefore := List.getElem?_eq_getElem (Nat.lt_of_succ_lt hbelow)
    obtain ⟨source, reached, -, ⟨edge, move, image, state, -, hmove, himage, hstate, hmeet⟩,
      hnext⟩ := hforward.step hbefore htarget
    rw [hzone] at hnext
    split_ifs at hnext
    obtain rfl := Option.some.inj hnext
    obtain ⟨hclocks, hlevel⟩ := level_of_post hwell hmove (ih _ hbefore).denotes himage
    have hdenotes := (Zone.meet_level tolerant_true hclocks hlevel
      (hexact.zoneSound (mem_of_state? hstate))).result hmeet
    exact ⟨hdenotes.members, fun valuation hmem ↦
      ⟨_, state, htarget, hstate, ((hdenotes.mem_iff valuation).mp hmem).2⟩⟩

theorem subset (hlength : zones.length ≤ path.length) {index : Nat} {zone : Zone}
    (hzone : zones[index]? = some zone) {old : AbstractState} (hold : old ∈ graph.states)
    (hid : path[index]? = some old.id) : ∀ valuation ∈ zone, valuation ∈ old.zone := by
  intro valuation hmem
  obtain ⟨id, state, hfound, hstate, hinside⟩ :=
    (hforward.lieAlong hexact hwell hlength index zone hzone).subset valuation hmem
  obtain rfl : old.id = id := Option.some.inj (hid.symm.trans hfound)
  obtain rfl : old = state := hexact.eq_of_id hold (mem_of_state? hstate) (id_of_state? hstate).symm
  exact hinside

end ForwardZones

/-! ### Cutting by a zone -/

/-- The zone was cut out of the state: those states at its location that overlap it are its pieces
by the atoms of the zone. -/
def Carved (graph : AbstractGraph) (old : AbstractState) (zone : Zone) : Prop :=
  ∃ atoms partition, zone.atoms = .ok atoms ∧ old.zone.partitionBy atoms = .ok partition ∧
    ∀ state ∈ graph.states, state.location = old.location →
      (∃ valuation ∈ state.zone, valuation ∈ old.zone) → state.zone ∈ partition.pieces

theorem Carved.alike {old : AbstractState} {zone : Zone} (hcarved : graph.Carved old zone)
    (halike : graph.Alike after) : after.Carved old zone := by
  obtain ⟨atoms, partition, hatoms, hpartition, hpieces⟩ := hcarved
  refine ⟨atoms, partition, hatoms, hpartition, fun state hstate ↦ ?_⟩
  obtain ⟨former, hformer, hsame⟩ := halike.exists_mem hstate
  rw [← hsame.location, ← hsame.zone]
  exact hpieces former hformer

/-- Of the pieces of a state, just the one that is the zone overlaps it. -/
theorem Carved.zone_eq {old state : AbstractState} {zone : Zone} {clocks : Nat}
    (hcarved : graph.Carved old zone) (hold : ZoneSound clocks old)
    (hzone : zone.Denotes clocks (· ∈ zone)) (hsome : zone.isBottom = false)
    (hinside : ∀ valuation ∈ zone, valuation ∈ old.zone) (hstate : state ∈ graph.states)
    (hlocation : state.location = old.location) {valuation : Valuation}
    (hmem : valuation ∈ state.zone) (hcommon : valuation ∈ zone) : state.zone = zone := by
  obtain ⟨atoms, partition, hlisted, hpartition, hpieces⟩ := hcarved
  have hpiece := hpieces state hstate hlocation ⟨valuation, hmem, hinside valuation hcommon⟩
  have hby := (Zone.partitionBy_exact tolerant_true hold fun _ atom _ _ ↦
    atom.tolerated_true _).result hpartition
  have hatoms := (Zone.atoms_yields tolerant_true hzone hsome).result hlisted
  have hsound := hby.tiles.denotes hpiece
  have hholds : ∀ other ∈ zone, ∀ atom ∈ atoms, atom.holds other = .ok true := fun other hother ↦
    (hatoms.2 other ((Zone.clocks_of_mem hother).trans hzone.clocks_eq)
      (Zone.nonNegative_of_mem hzone.canonical hother)).mpr hother
  refine hsound.unique (hzone.congr fun other ↦ ⟨fun hother ↦ ?_, fun hother ↦ ?_⟩)
  · -- All atoms hold in the zone, so none of them tells the two valuations apart.
    refine hby.determined state.zone hpiece valuation hmem other (hinside other hother) ?_
    intro atom hatom _
    have hused := (hby.used atom hatom).1
    exact iff_of_true (hholds valuation hcommon atom hused) (hholds other hother atom hused)
  · have huniform : Zone.UniformOn atoms [state.zone] := fun atom hatom hisAtom piece hmember ↦
      List.mem_singleton.mp hmember ▸ hby.uniform atom hatom hisAtom state.zone hpiece
    exact Zone.subset_of_uniform hatoms hsound.canonical hsound.clocks_eq huniform
      ⟨valuation, hmem, hcommon⟩ other hother

/-- A tiling of a zone by fewer than two pieces is the zone itself. -/
theorem mem_of_tiles {zone : Zone} {clocks : Nat} {pieces : List Zone}
    (hzone : zone.Denotes clocks (· ∈ zone)) (hsome : zone.isBottom = false)
    (htiles : Tiles pieces clocks (· ∈ zone)) (hfew : pieces.length < 2) : zone ∈ pieces := by
  obtain ⟨valuation, hmem⟩ := (Zone.exists_mem_iff hzone.canonical).mp hsome
  obtain ⟨piece, hpiece, -⟩ := (htiles.cover valuation).mp hmem
  obtain ⟨only, rfl⟩ := List.length_eq_one_iff.mp
    (le_antisymm (Nat.le_of_lt_succ hfew) (List.length_pos_of_mem hpiece))
  have honly := (htiles.denotes List.mem_cons_self).congr fun valuation ↦ by
    simpa using (htiles.cover valuation).symm
  exact List.mem_singleton.mpr (hzone.unique honly)

namespace Splits

variable {old : AbstractState} {atoms : List Constraint} {partition : Partition}
  {pieces : List AbstractState} (hsplits : graph.Splits after old partition.pieces pieces)

include hsplits

/-- Splitting a state by the atoms of a zone cuts the zone out of it. -/
theorem carved {zone : Zone} (hatoms : zone.atoms = .ok atoms)
    (hpartition : old.zone.partitionBy atoms = .ok partition)
    (halone : ∀ state ∈ graph.states, state.location = old.location →
      (∃ valuation ∈ state.zone, valuation ∈ old.zone) → state = old) : after.Carved old zone := by
  refine ⟨atoms, partition, hatoms, hpartition, fun state hstate hlocation hoverlap ↦ ?_⟩
  rcases hsplits.mem_states_iff.mp hstate with ⟨hkept, hother⟩ | hpiece
  · exact absurd (congrArg AbstractState.id (halone state hkept hlocation hoverlap)) hother
  · exact hsplits.zone_mem hpiece

/-- What was cut out of a state stays so, if another state is split that does not overlap it. -/
theorem carved_of_apart {cut : AbstractState} {zone : Zone} (hcarved : graph.Carved cut zone)
    {clocks : Nat} (htiles : Tiles partition.pieces clocks (· ∈ old.zone))
    (hapart : old.location = cut.location → ∀ valuation ∈ old.zone, valuation ∉ cut.zone) :
    after.Carved cut zone := by
  obtain ⟨atoms, cutPartition, hatoms, hcutPartition, hpieces⟩ := hcarved
  refine ⟨atoms, cutPartition, hatoms, hcutPartition, ?_⟩
  rintro state hstate hlocation ⟨valuation, hinside, hcommon⟩
  rcases hsplits.mem_states_iff.mp hstate with ⟨hkept, -⟩ | hpiece
  · exact hpieces state hkept hlocation ⟨valuation, hinside, hcommon⟩
  · have hplace := (hsplits.appends.location_eq state hpiece).symm.trans hlocation
    exact absurd hcommon (hapart hplace valuation (htiles.subset (hsplits.zone_mem hpiece) hinside))

end Splits

/-- At every position done, the zone of the formula was cut out of the state that was there. -/
def CarvedAlong (start : AbstractGraph) (path : List StateId) (done : List (Nat × Formula))
    (graph : AbstractGraph) : Prop :=
  ∀ position ∈ done, ∀ old ∈ start.states, path[position.1]? = some old.id →
    graph.Carved old position.2.zone

/-- A state at a position that is not done was not split. -/
theorem Tracks.not_mem_split_of_new {start : AbstractGraph} {done : List (Nat × Formula)}
    {progress : SplitProgress} (htracks : start.Tracks path done progress) (hsimple : path.Nodup)
    {index : Nat} (hnew : ∀ before ∈ done, before.1 ≠ index) {id : StateId}
    (hid : path[index]? = some id) : id ∉ progress.split := by
  intro hsplit
  obtain ⟨before, hbefore, hat, -⟩ := htracks.placed id hsplit
  have hbelow := (List.getElem?_eq_some_iff.mp hat).1
  exact hnew before hbefore ((List.getElem?_inj hbelow hsimple).mp (hat.trans hid.symm))

/-- Splitting the state at a position cuts the zone of the formula out of it, and leaves the pieces
of the other states as they are. -/
theorem SplitStep.carvedAlong {start : AbstractGraph} {done : List (Nat × Formula)}
    {progress next : SplitProgress} {position : Nat × Formula}
    (hstep : SplitStep path progress position next) (hstart : start.StatesExact)
    (hexact : progress.graph.StatesExact) (htracks : start.Tracks path done progress)
    (hsimple : path.Nodup) (hpresent : ∀ id ∈ path, start.hasState id = true)
    (hnew : ∀ before ∈ done, before.1 ≠ position.1)
    (hcarved : start.CarvedAlong path done progress.graph) :
    start.CarvedAlong path (done ++ [position]) next.graph := by
  -- No other position holds this state, so it is still as it was at the start.
  have hkept : ∀ old ∈ start.states, path[position.1]? = some old.id →
      progress.graph.state? old.id = some old := fun old hold hid ↦
    (state?_eq_some_iff hexact.distinct).mpr
      ⟨htracks.kept old hold (htracks.not_mem_split_of_new hsimple hnew hid), rfl⟩
  cases hstep with
  | @spare id hid hleft =>
    refine List.forall_mem_append.mpr ⟨hcarved, List.forall_mem_singleton.mpr ?_⟩
    intro old hold hthere
    have hstate := hkept old hold hthere
    obtain rfl : id = old.id := Option.some.inj (hid.symm.trans hthere)
    have hmem := mem_of_state? hstate
    rcases hleft with hsplit | hnone | ⟨found, hfound, hspared⟩
    · exact absurd hsplit (htracks.not_mem_split_of_new hsimple hnew hthere)
    · rw [hstate] at hnone
      contradiction
    obtain rfl : old = found := Option.some.inj (hstate.symm.trans hfound)
    rcases hspared with hbottom | ⟨atoms, partition, hatoms, hpartition, hfew⟩
    · rw [hexact.isBottom_eq hmem] at hbottom
      contradiction
    refine ⟨atoms, partition, hatoms, hpartition, fun state hother hlocation hoverlap ↦ ?_⟩
    obtain ⟨valuation, hinside, hcommon⟩ := hoverlap
    obtain rfl := hexact.eq_of_mem hother hmem hlocation hinside hcommon
    exact mem_of_tiles (hexact.zoneSound hmem) (hexact.isBottom_eq hmem)
      (hexact.partition_by hmem hpartition).tiles hfew
  | @cut id old atoms partition precision after pieces hid _ hold hatoms hpartition _ _ hsplit =>
    have hsplits : (progress.graph.withPrecision old.location
        (precision.join partition.used)).Splits after old partition.pieces pieces :=
      splits_of_splitState hold hsplit
    have hmem := mem_of_state? hold
    obtain rfl := id_of_state? hold
    obtain ⟨former, hformer, hsame⟩ :=
      List.mem_map.mp (hasState_iff.mp (hpresent old.id (List.mem_of_getElem? hid)))
    have hbefore : old ∈ start.states := by
      have hfound := hkept former hformer (hsame ▸ hid)
      rw [hsame, hold] at hfound
      exact Option.some.inj hfound ▸ hformer
    refine List.forall_mem_append.mpr ⟨fun other hother cut hcut hthere ↦ ?_,
      List.forall_mem_singleton.mpr fun cut hcut hthere ↦ ?_⟩
    · refine hsplits.carved_of_apart (hcarved other hother cut hcut hthere)
        (hexact.partition_by hmem hpartition).tiles fun hlocation valuation hinside hcommon ↦ ?_
      -- Two states of the path that overlap are one, and it stands at one position.
      obtain rfl := hstart.eq_of_mem hbefore hcut hlocation hinside hcommon
      have hbelow := (List.getElem?_eq_some_iff.mp hthere).1
      exact hnew other hother ((List.getElem?_inj hbelow hsimple).mp (hthere.trans hid.symm))
    · obtain rfl : old = cut := hstart.eq_of_id hbefore hcut
        (Option.some.inj (hid.symm.trans hthere))
      refine hsplits.carved hatoms hpartition fun state hstate hlocation hoverlap ↦ ?_
      obtain ⟨valuation, hinside, hcommon⟩ := hoverlap
      exact hexact.eq_of_mem hstate hmem hlocation hinside hcommon

/-- The formulas of an interpolant are at different positions. -/
theorem nodup_positions (interpolant : Interpolant) : (interpolant.formulas.map (·.1)).Nodup := by
  cases interpolant with
  | binary => exact List.nodup_singleton _
  | sequence formulas =>
    have hpositions : (Interpolant.sequence formulas).formulas.map (·.1) =
        formulas.zipIdx.map Prod.snd := by
      rw [Interpolant.formulas, List.map_map]
      rfl
    rw [hpositions, List.zipIdx_map_snd]
    exact List.nodup_range'

/-- A whole refinement cuts out the zones of all its formulas. -/
theorem carvedAlong_of_splitAlong (hwell : automaton.WellFormed)
    (hconsistent : graph.Consistent automaton) (hsimple : path.Nodup)
    (hpresent : ∀ id ∈ path, graph.hasState id = true) {interpolant : Interpolant} {first : Nat}
    (hsplit : graph.splitAlong path interpolant = .ok (after, first)) :
    ∃ progress : SplitProgress, progress.graph = after ∧
      graph.Tracks path interpolant.formulas progress ∧ after.Consistent automaton ∧
        graph.CarvedAlong path interpolant.formulas after := by
  have hexact := hconsistent.states
  have hstep : ∀ done position rest, interpolant.formulas = done ++ position :: rest →
      ∀ progress next : SplitProgress, graph.Tracks path done progress ∧
        progress.graph.Consistent automaton ∧ graph.CarvedAlong path done progress.graph →
      SplitStep path progress position next → graph.Tracks path (done ++ [position]) next ∧
        next.graph.Consistent automaton ∧
          graph.CarvedAlong path (done ++ [position]) next.graph := by
    rintro done position rest hformulas progress next ⟨htracks, hprogress, hcarved⟩ hstep
    have hdistinct := nodup_positions interpolant
    rw [hformulas, List.map_append, List.map_cons] at hdistinct
    refine ⟨htracks.step hstep, hstep.consistent hwell hprogress, hstep.carvedAlong hexact
      hprogress.states htracks hsimple hpresent (fun before hbefore ↦ ?_) hcarved⟩
    exact (List.nodup_append.mp hdistinct).2.2 _ (List.mem_map_of_mem hbefore) _
      List.mem_cons_self
  obtain ⟨progress, ⟨htracks, hafter, hcarved⟩, rfl, -⟩ := splitAlong_induction
    (fun done (progress : SplitProgress) ↦ graph.Tracks path done progress ∧
      progress.graph.Consistent automaton ∧ graph.CarvedAlong path done progress.graph)
    ⟨.start ⟨hexact.distinct, hexact.fresh⟩ path, hconsistent, by simp [CarvedAlong]⟩ hstep hsplit
  exact ⟨progress, rfl, htracks, hafter, hcarved⟩

/-! ### The end of the path -/

/-- A path that is judged infeasible although its last state is reached has no error there. -/
theorem errorWitness_of_traceAlong {ids : List StateId} {zones : List Zone}
    {steps : List Configuration} (htrace : graph.traceAlong ids zones = .ok (steps, false))
    {index : Nat} (hlast : ids.length = index + 1) {id : StateId} (hid : ids[index]? = some id)
    {zone : Zone} (hzone : zones[index]? = some zone) :
    ∃ state, graph.state? id = some state ∧ graph.errorWitness state.location zone = .ok none := by
  have hyields : Yields (fun _ ↦ True) (graph.traceAlong ids zones) fun trace ↦ trace.2 = false →
      ∃ state, graph.state? id = some state ∧
        graph.errorWitness state.location zone = .ok none := by
    clear htrace
    induction ids generalizing zones index with
    | nil => simp at hlast
    | cons first rest ih =>
      cases zones with
      | nil => simp at hzone
      | cons here later =>
        rw [traceAlong]
        refine (Yields.any (graph.pathState first)).bind_eq fun state hstate _ ↦ ?_
        cases rest with
        | nil =>
          obtain rfl : index = 0 := by simpa using hlast
          obtain rfl : first = id := by simpa using hid
          obtain rfl : here = zone := by simpa using hzone
          refine (Yields.any (graph.errorWitness state.location here)).bind_eq
            fun found hfound _ ↦ ?_
          refine (Yields.any _).bind fun step _ ↦ (Yields.any _).bind fun trace _ ↦ ?_
          intro hnone
          have hfoundNone : found = none := by
            simpa using (Bool.or_eq_false_iff.mp hnone).1
          exact ⟨state, pathState_eq_ok_iff.mp hstate, hfoundNone ▸ hfound⟩
        | cons next rest =>
          obtain ⟨index, rfl⟩ : ∃ before, index = before + 1 := ⟨index - 1, by simp at hlast; omega⟩
          refine (Yields.any _).bind fun error _ ↦ (Yields.any _).bind fun step _ ↦ ?_
          refine (ih (by simpa using hlast) (by simpa using hid) (by simpa using hzone)).bind ?_
          exact fun trace htrace hnone ↦ htrace (Bool.or_eq_false_iff.mp hnone).2
  exact hyields.result htrace rfl

/-- A path that is judged infeasible has no error in the last zone, if its last state is reached. -/
theorem errorWitness_of_replay {trace : Trace}
    (hreplay : graph.replay path = .ok (.infeasible trace)) {zones : List Zone}
    (hreach : graph.reachAlong path = .ok zones) {index : Nat} (hlast : path.length = index + 1)
    {id : StateId} (hid : path[index]? = some id) {zone : Zone}
    (hzone : zones[index]? = some zone) :
    ∃ state, graph.state? id = some state ∧ graph.errorWitness state.location zone = .ok none := by
  have hyields : Yields (fun _ ↦ True) (graph.replay path) fun verdict ↦
      verdict = .infeasible trace → graph.traceAlong path zones = .ok (trace.steps, false) := by
    cases path with
    | nil => trivial
    | cons first rest =>
      refine (Yields.any (graph.reachAlong (first :: rest))).bind_eq fun found hfound _ ↦ ?_
      obtain rfl : zones = found := Except.ok.inj (hreach.symm.trans hfound)
      by_cases hempty : zones.isEmpty = true
      · rw [if_pos hempty]
        trivial
      rw [if_neg hempty]
      refine (Yields.any (graph.traceAlong (first :: rest) zones)).bind_eq ?_
      rintro ⟨steps, feasible⟩ htrace -
      cases feasible with
      | true => exact nofun
      | false =>
        rintro ⟨⟩
        exact htrace
  exact errorWitness_of_traceAlong (hyields.result hreplay rfl) hlast hid hzone

/-- A state whose zone was found not to wait into an error is no error state. -/
theorem isErrorState_of_errorWitness {state : AbstractState}
    (hstate : after.state? state.id = some state) (hautomaton : after.automaton = graph.automaton)
    (herror : graph.errorWitness state.location state.zone = .ok none) :
    after.isErrorState state.id = .ok false := by
  have hyields : Yields (fun _ ↦ True) (graph.errorWitness state.location state.zone)
      fun found ↦ found = none → after.isErrorState state.id = .ok false := by
    rw [isErrorState, hstate]
    dsimp only
    rw [errorWitness, hautomaton]
    cases graph.automaton.error? state.location with
    | none => exact fun _ ↦ rfl
    | some condition =>
      refine (Yields.any (state.zone.meet condition.approach)).bind_eq fun doomed hmeet _ ↦ ?_
      by_cases hbottom : doomed.isBottom = true
      · rw [if_pos hbottom]
        exact fun _ ↦ (meets_of_meet hmeet).trans (by rw [hbottom, Bool.not_true])
      · rw [if_neg hbottom]
        refine (Yields.any _).bind fun place _ ↦ (Yields.any _).bind fun waited _ ↦ ?_
        exact (Yields.any _).bind fun witness _ hnone ↦ absurd hnone (Option.some_ne_none _)
  exact hyields.result herror rfl

/-! ### No way on -/

/-- The state is at the location of the state at a position of the path, and inside its zone, as
these are in the first graph. -/
def LiesWithin (graph : AbstractGraph) (path : List StateId) (index : Nat)
    (state : AbstractState) : Prop :=
  ∃ id former, path[index]? = some id ∧ graph.state? id = some former ∧
    state.location = former.location ∧ ∀ valuation ∈ state.zone, valuation ∈ former.zone

/-- From the state of the refined graph, the path does not go on after the position: there is no
transition along its smallest edge to its next state, and at its end there is no error. -/
structure Stuck (graph : AbstractGraph) (path : List StateId) (index : Nat)
    (refined : AbstractGraph) (state : AbstractState) : Prop where
  next : ∀ here next, path[index]? = some here → path[index + 1]? = some next →
    ∃ edge, graph.LeastEdge here next edge ∧ ⟨state.id, edge, next⟩ ∉ refined.transitions
  last : path.length = index + 1 → refined.isErrorState state.id = .ok false

/-- The states of the refined graph follow the path up to a position, from an initial state on: each
lies within the state of the path, and is linked to the next along the edge that the path takes. -/
structure Shadows (graph : AbstractGraph) (path : List StateId) (index : Nat)
    (refined : AbstractGraph) (states : Nat → AbstractState) : Prop where
  initial : (states 0).initial = true
  within : ∀ position ≤ index, states position ∈ refined.states ∧
    graph.LiesWithin path position (states position)
  linked : ∀ position < index, ∃ here next edge, path[position]? = some here ∧
    path[position + 1]? = some next ∧ graph.LeastEdge here next edge ∧
      ⟨(states position).id, edge, (states (position + 1)).id⟩ ∈ refined.transitions

/-- A graph in which the forward zones along a path were cut out of its states, at the positions
that are covered. -/
structure CutsForward (graph : AbstractGraph) (path : List StateId) (zones : List Zone)
    (covered : Nat → Prop) (refined : AbstractGraph) : Prop where
  consistent : refined.Consistent graph.automaton
  carved : ∀ index zone, covered index → zones[index]? = some zone → ∀ old ∈ graph.states,
    path[index]? = some old.id → refined.Carved old zone
  /-- The state after the last zone is still there. -/
  kept : ∀ old ∈ graph.states, path[zones.length]? = some old.id →
    ∃ same ∈ refined.states, same.Same old

namespace CutsForward

variable {refined : AbstractGraph} {zones : List Zone} {covered : Nat → Prop}
  (hcuts : graph.CutsForward path zones covered refined)
  (hforward : graph.ForwardZones path zones) (hlength : zones.length ≤ path.length)
  (hexact : graph.StatesExact) (hwell : graph.automaton.WellFormed)

include hcuts hforward hlength hexact hwell

/-- Within the state at a covered position, just the state of the forward zone overlaps it. -/
theorem zone_eq {index : Nat} {zone : Zone} (hcovered : covered index)
    (hzone : zones[index]? = some zone) {old state : AbstractState} (hold : old ∈ graph.states)
    (hid : path[index]? = some old.id) (hstate : state ∈ refined.states)
    (hlocation : state.location = old.location) {valuation : Valuation}
    (hmem : valuation ∈ state.zone) (hcommon : valuation ∈ zone) : state.zone = zone :=
  (hcuts.carved index zone hcovered hzone old hold hid).zone_eq (hexact.zoneSound hold)
    (hforward.lieAlong hexact hwell hlength index zone hzone).denotes
    (hforward.isBottom_eq zone (List.mem_of_getElem? hzone))
    (hforward.subset hexact hwell hlength hzone hold hid) hstate hlocation hmem hcommon

/-- Some state within the one at a covered position has the forward zone as its zone. -/
theorem exists_state {index : Nat} {zone : Zone} (hcovered : covered index)
    (hzone : zones[index]? = some zone) :
    ∃ state ∈ refined.states, graph.LiesWithin path index state ∧ state.zone = zone := by
  have hat := hforward.lieAlong hexact hwell hlength index zone hzone
  obtain ⟨valuation, hmem⟩ := (Zone.exists_mem_iff hat.denotes.canonical).mp
    (hforward.isBottom_eq zone (List.mem_of_getElem? hzone))
  obtain ⟨id, old, hid, hold, hinside⟩ := hat.subset valuation hmem
  have hmember := mem_of_state? hold
  obtain rfl := id_of_state? hold
  have hallows := hexact.allows hmember hinside
  rw [← hcuts.consistent.automaton_eq] at hallows
  obtain ⟨state, hstate, hlocation, hthere⟩ := hcuts.consistent.states.exists_state hallows
  have hsame := hcuts.zone_eq hforward hlength hexact hwell hcovered hzone hmember hid hstate
    hlocation hthere hmem
  refine ⟨state, hstate, ⟨old.id, old, hid, hold, hlocation, ?_⟩, hsame⟩
  rw [hsame]
  exact hforward.subset hexact hwell hlength hzone hmember hid

omit hlength hexact hwell in
/-- Where the zones end, the state of the last one does not go on along the path. -/
theorem stuck (hcharted : graph.Charted graph.automaton) {index : Nat} {zone : Zone}
    (hzone : zones[index]? = some zone) (hends : zones.length = index + 1) {state : AbstractState}
    (hstate : state ∈ refined.states) (hsame : state.zone = zone)
    (herror : path.length = index + 1 → graph.errorWitness state.location zone = .ok none) :
    graph.Stuck path index refined state := by
  subst hsame
  refine ⟨fun here next hhere hnext ↦ ?_, fun hlast ↦ ?_⟩
  · obtain ⟨source, reached, hsource, hsteps, hstop⟩ := hforward.step hzone hnext
    obtain rfl : here = source := Option.some.inj (hhere.symm.trans hsource)
    obtain ⟨edge, move, image, target, hedge, hmove, himage, htarget, hmeet⟩ := hsteps
    refine ⟨edge, hcharted.edgeBetween_eq_some_iff.mp hedge, fun htransition ↦ ?_⟩
    obtain ⟨second, hsecond, hkept⟩ := hcuts.kept target (mem_of_state? htarget)
      (by rw [hends, hnext, id_of_state? htarget])
    rw [← id_of_state? htarget, ← hkept.id] at htransition
    obtain ⟨found, foundImage, hfound, hpost, hmeets⟩ :=
      hcuts.consistent.decided hstate hsecond htransition
    obtain rfl : move = found := Except.ok.inj (hmove.symm.trans hfound)
    obtain rfl : image = foundImage := Except.ok.inj (himage.symm.trans hpost)
    -- The image was found to miss the next state, which has not changed since.
    have hbottom : reached.isBottom = true := by
      by_contra hsome
      rw [if_neg hsome, List.getElem?_eq_none (by omega)] at hstop
      contradiction
    rw [hkept.zone, meets_of_meet hmeet, hbottom] at hmeets
    contradiction
  · refine isErrorState_of_errorWitness ?_ hcuts.consistent.automaton_eq (herror hlast)
    exact (state?_eq_some_iff hcuts.consistent.states.distinct).mpr ⟨hstate, rfl⟩

/-- Where all positions are covered, states that follow the path have the forward zones. -/
theorem shadows_zone_eq (hcharted : graph.Charted graph.automaton)
    (hcovered : ∀ position < zones.length, covered position) {index : Nat}
    {states : Nat → AbstractState} (hshadows : graph.Shadows path index refined states)
    {position : Nat} (hposition : position ≤ index) {zone : Zone}
    (hzone : zones[position]? = some zone) : (states position).zone = zone := by
  -- By induction on the position. A state that is linked to the last one overlaps the next zone.
  induction position generalizing zone with
  | zero =>
    obtain ⟨hstate, id, old, hid, hold, hlocation, hinside⟩ := hshadows.within 0 hposition
    obtain ⟨-, valuation, hmem, hstarts⟩ :=
      (hcuts.consistent.states.flag _ hstate).mp hshadows.initial
    rw [hcuts.consistent.automaton_eq] at hstarts
    have hdenotes := hforward.start_denotes hexact hwell hzone hid hold
    obtain rfl := id_of_state? hold
    exact hcuts.zone_eq hforward hlength hexact hwell
      (hcovered 0 (List.getElem?_eq_some_iff.mp hzone).1) hzone (mem_of_state? hold) hid hstate
      hlocation hmem ((hdenotes.mem_iff valuation).mpr ⟨hstarts, hinside valuation hmem⟩)
  | succ position ih =>
    have hbelow := (List.getElem?_eq_some_iff.mp hzone).1
    have hbefore := List.getElem?_eq_getElem (Nat.lt_of_succ_lt hbelow)
    obtain ⟨here, next, edge, hhere, hnext, hleast, htransition⟩ :=
      hshadows.linked position (by omega)
    obtain ⟨source, reached, hsource, hsteps, hreached⟩ := hforward.step hbefore hnext
    obtain rfl : here = source := Option.some.inj (hhere.symm.trans hsource)
    obtain ⟨taken, move, image, target, htaken, hmove, himage, htarget, hmeet⟩ := hsteps
    obtain rfl := hleast.unique (hcharted.edgeBetween_eq_some_iff.mp htaken)
    rw [hzone] at hreached
    split_ifs at hreached
    obtain rfl := Option.some.inj hreached
    obtain ⟨hfirst, -⟩ := hshadows.within position (by omega)
    obtain ⟨hstate, id, old, hid, hold, hlocation, hinside⟩ :=
      hshadows.within (position + 1) hposition
    obtain rfl : next = id := Option.some.inj (hnext.symm.trans hid)
    obtain rfl : target = old := Option.some.inj (htarget.symm.trans hold)
    obtain rfl := id_of_state? hold
    obtain ⟨found, foundImage, hfound, hpost, hmeets⟩ :=
      hcuts.consistent.decided hfirst hstate htransition
    obtain rfl : move = found := Except.ok.inj (hmove.symm.trans hfound)
    rw [ih (by omega) hbefore, himage] at hpost
    obtain rfl : image = foundImage := Except.ok.inj hpost
    obtain ⟨hclocks, hlevel⟩ := level_of_post hwell hmove
      (hforward.lieAlong hexact hwell hlength position _ hbefore).denotes himage
    have hsound := hcuts.consistent.states.zoneSound hstate
    rw [hcuts.consistent.automaton_eq] at hsound
    obtain ⟨valuation, hreaches, hmem⟩ :=
      ((Zone.meets_level tolerant_true hclocks hlevel hsound).result hmeets).mp rfl
    have hdenotes := (Zone.meet_level tolerant_true hclocks hlevel
      (hexact.zoneSound (mem_of_state? hold))).result hmeet
    exact hcuts.zone_eq hforward hlength hexact hwell (hcovered _ hbelow) hzone
      (mem_of_state? hold) hid hstate hlocation hmem
      ((hdenotes.mem_iff valuation).mpr ⟨hreaches, hinside valuation hmem⟩)

end CutsForward

/-- The refined graph does not follow the path any more after the position, where the last zone was
reached. -/
structure Eliminates (kind : InterpolantKind) (graph : AbstractGraph) (path : List StateId)
    (index : Nat) (last : Zone) (refined : AbstractGraph) : Prop where
  /-- Inside the state of the path, just one state overlaps the last zone. It is that zone, and the
  path does not go on from it. -/
  carved : ∃ state, state.zone = last ∧ graph.Stuck path index refined state ∧
    ∀ other, (other ∈ refined.states ∧ graph.LiesWithin path index other ∧
      ∃ valuation ∈ other.zone, valuation ∈ last) ↔ other = state
  /-- By a sequence, nothing that follows the path from an initial state on gets past the
  position. -/
  blocked : kind = .sequence → ∀ states, graph.Shadows path index refined states →
    graph.Stuck path index refined (states index)

theorem CutsForward.eliminates {kind : InterpolantKind} {refined : AbstractGraph}
    {zones : List Zone} {index : Nat} {last : Zone}
    (hcuts : graph.CutsForward path zones
      (fun position ↦ position = index ∨ kind = .sequence) refined)
    (hforward : graph.ForwardZones path zones) (hlength : zones.length ≤ path.length)
    (hexact : graph.StatesExact) (hwell : graph.automaton.WellFormed)
    (hcharted : graph.Charted graph.automaton) (hends : zones.length = index + 1)
    (hlast : zones[index]? = some last)
    (herror : path.length = index + 1 → ∀ id state, path[index]? = some id →
      graph.state? id = some state → graph.errorWitness state.location last = .ok none) :
    Eliminates kind graph path index last refined := by
  have hstuck : ∀ state ∈ refined.states, graph.LiesWithin path index state → state.zone = last →
      graph.Stuck path index refined state := by
    rintro state hstate ⟨id, old, hid, hold, hlocation, -⟩ hsame
    refine hcuts.stuck hforward hcharted hlast hends hstate hsame fun hfull ↦ ?_
    rw [hlocation]
    exact herror hfull id old hid hold
  constructor
  · obtain ⟨state, hstate, hlies, hsame⟩ :=
      hcuts.exists_state hforward hlength hexact hwell (Or.inl rfl) hlast
    obtain ⟨valuation, hmem⟩ := (hcuts.consistent.states.tiles _).exists_mem (mem_zonesAt hstate)
    refine ⟨state, hsame, hstuck state hstate hlies hsame, fun other ↦ ⟨?_, ?_⟩⟩
    · rintro ⟨hother, ⟨id, old, hid, hold, hlocation, -⟩, common, hinside, hcommon⟩
      obtain rfl := id_of_state? hold
      have hotherSame := hcuts.zone_eq hforward hlength hexact hwell (Or.inl rfl) hlast
        (mem_of_state? hold) hid hother hlocation hinside hcommon
      obtain ⟨found, former, hfound, hformer, hplace, -⟩ := hlies
      obtain rfl : old.id = found := Option.some.inj (hid.symm.trans hfound)
      obtain rfl : old = former := Option.some.inj (hold.symm.trans hformer)
      refine hcuts.consistent.states.eq_of_mem hother hstate (hlocation.trans hplace.symm) ?_ hmem
      rwa [hotherSame, ← hsame]
    · rintro rfl
      exact ⟨hstate, hlies, valuation, hmem, hsame ▸ hmem⟩
  · intro hsequence states hshadows
    obtain ⟨hstate, hlies⟩ := hshadows.within index le_rfl
    exact hstuck _ hstate hlies (hcuts.shadows_zone_eq hforward hlength hexact hwell hcharted
      (fun _ _ ↦ Or.inr hsequence) hshadows le_rfl hlast)

end TimedSafety.AbstractGraph
