import TimedSafety.Graph.Refinement
import TimedSafety.Proofs.Graph.Split

/-!
What single changes do to the bookkeeping of a graph, whatever its zones hold. Splitting a state
replaces it by states with new numbers and keeps the transitions between all others
(`splits_of_splitState`). Refining along a path leaves the state at each position alone or splits it
(`SplitStep`), so an invariant of a whole refinement follows from one step (`splitAlong_induction`).
A transition is only ever added after the image along its edge was found to meet its target
(`Decided`).
-/

set_option autoImplicit false

namespace TimedSafety.AbstractGraph

variable {graph after : AbstractGraph}

/-! ### Transitions that were decided -/

/-- The image of the source along the edge was computed, and it meets the target. -/
def Decided (automaton : Automaton) (edge : EdgeId) (source target : AbstractState) : Prop :=
  ∃ move image, automaton.move edge = .ok move ∧ move.post source.zone = .ok image ∧
    image.meets target.zone = .ok true

/-- Every transition was decided for states that are there. -/
def Witnessed (graph : AbstractGraph) : Prop :=
  ∀ transition ∈ graph.transitions, ∃ source ∈ graph.states, ∃ target ∈ graph.states,
    transition = ⟨source.id, transition.edge, target.id⟩ ∧
      Decided graph.automaton transition.edge source target

theorem connect_gains (graph : AbstractGraph) (edge : EdgeId) (source target : AbstractState) :
    Yields (fun _ ↦ True) (graph.connect edge source target) (graph.Gains · fun transition ↦
      transition = ⟨source.id, edge, target.id⟩ ∧ Decided graph.automaton edge source target) := by
  unfold connect
  cases hmove : graph.automaton.move edge with
  | error fault => trivial
  | ok move =>
    refine (Yields.any (move.post source.zone)).bind_eq fun image himage _ ↦ ?_
    refine (Yields.any (image.meets target.zone)).bind_eq fun reached hreached _ ↦ ?_
    cases reached with
    | true =>
      have hdecided : Decided graph.automaton edge source target :=
        ⟨move, image, hmove, himage, hreached⟩
      refine ⟨_, rfl, fun transition ↦ Transition.mem_insertSorted_iff.trans ?_⟩
      exact or_comm.trans (or_congr_right (and_iff_left hdecided).symm)
    | false =>
      have hnot : ¬ Decided graph.automaton edge source target := by
        rintro ⟨other, otherImage, hother, hpost, hmeets⟩
        obtain rfl : move = other := Except.ok.inj (hmove.symm.trans hother)
        obtain rfl : image = otherImage := Except.ok.inj (himage.symm.trans hpost)
        exact absurd (hreached.symm.trans hmeets) (by simp)
      exact (Gains.refl graph).congr fun transition ↦ by simp [hnot]

theorem connectAll_gains (graph : AbstractGraph) (edge : EdgeId)
    (sources targets : List AbstractState) :
    Yields (fun _ ↦ True) (graph.connectAll edge sources targets) (graph.Gains · fun transition ↦
      ∃ source ∈ sources, ∃ target ∈ targets, transition = ⟨source.id, edge, target.id⟩ ∧
        Decided graph.automaton edge source target) := by
  refine Gains.foldlM _ fun source _ outer houter ↦ ?_
  refine Gains.foldlM _ fun target _ inner hinner ↦ ?_
  obtain ⟨_, houter⟩ := houter
  obtain ⟨_, hinner⟩ := hinner
  rw [← houter.automaton_eq, ← hinner.automaton_eq]
  exact inner.connect_gains edge source target

/-! ### Building -/

/-- Numbers are distinct and below the next one. -/
structure Numbered (graph : AbstractGraph) : Prop where
  distinct : (graph.states.map (·.id)).Nodup
  fresh : ∀ state ∈ graph.states, state.id.number < graph.nextId.number

/-- No state is highlighted. -/
def Unmarked (graph : AbstractGraph) : Prop := ∀ state ∈ graph.states, state.highlighted = false

/-- A graph with states only, before anything is searched. -/
structure Celled (automaton : Automaton) (precisions : PrecisionTable Precision)
    (graph : AbstractGraph) : Prop where
  automaton_eq : graph.automaton = automaton
  precisions_eq : graph.precisions = precisions
  transitions_eq : graph.transitions = []
  lastPath_eq : graph.lastPath = []
  numbered : graph.Numbered
  unmarked : graph.Unmarked

theorem Appends.numbered {location : Location} {zones : List Zone} {added : List AbstractState}
    (happends : graph.Appends after location zones added) (hnumbered : graph.Numbered) :
    after.Numbered :=
  ⟨happends.distinct_append hnumbered.distinct hnumbered.fresh,
    happends.fresh_append hnumbered.fresh⟩

theorem celled_empty (automaton : Automaton) (precisions : PrecisionTable Precision) :
    Celled automaton precisions (empty automaton precisions) :=
  ⟨rfl, rfl, rfl, rfl, ⟨List.nodup_nil, by simp [empty]⟩, by simp [empty, Unmarked]⟩

theorem Celled.addCells {automaton : Automaton} {precisions : PrecisionTable Precision}
    (hcelled : Celled automaton precisions graph) (location : Location) :
    Yields (fun _ ↦ True) (graph.addCells location) (Celled automaton precisions) := by
  refine (Yields.any _).bind fun precision _ ↦ (Yields.any _).bind fun allowed _ ↦ ?_
  refine (Yields.any _).bind fun cells _ ↦ (graph.addStates_appends location cells).bind ?_
  rintro ⟨grown, added⟩ happends
  refine ⟨happends.automaton_eq.trans hcelled.automaton_eq,
    happends.precisions_eq.trans hcelled.precisions_eq,
    happends.transitions_eq.trans hcelled.transitions_eq,
    happends.lastPath_eq.trans hcelled.lastPath_eq, happends.numbered hcelled.numbered, ?_⟩
  intro state hstate
  rw [happends.states_eq] at hstate
  rcases List.mem_append.mp hstate with hbefore | hadded
  · exact hcelled.unmarked state hbefore
  · exact happends.plain state hadded

/-- The transition was decided along an edge, for states at the ends of the edge. -/
def EdgeDecided (graph : AbstractGraph) (transition : Transition) : Prop :=
  ∃ edge ∈ graph.automaton.edges, ∃ source ∈ graph.statesAt edge.source,
    ∃ target ∈ graph.statesAt edge.target, transition = ⟨source.id, edge.id, target.id⟩ ∧
      Decided graph.automaton edge.id source target

/-- A graph is built from its cells by deciding the transitions along all edges. -/
theorem build_gains (automaton : Automaton) (precisions : PrecisionTable Precision) :
    Yields (fun _ ↦ True) (build automaton precisions) fun graph ↦ ∃ celled,
      automaton.locations.foldlM addCells (empty automaton precisions) = .ok celled ∧
      Celled automaton precisions celled ∧ celled.Gains graph celled.EdgeDecided := by
  have hcells : Yields (fun _ ↦ True)
      (automaton.locations.foldlM addCells (empty automaton precisions))
      (Celled automaton precisions) :=
    Yields.foldlM_const (celled_empty automaton precisions) fun location _ current hcurrent ↦
      hcurrent.addCells location
  refine hcells.bind_eq fun celled hfold hcelled ↦ ?_
  obtain rfl := hcelled.automaton_eq
  refine (Gains.foldlM (fun (edge : Edge) transition ↦
    ∃ source ∈ celled.statesAt edge.source, ∃ target ∈ celled.statesAt edge.target,
      transition = ⟨source.id, edge.id, target.id⟩ ∧
        Decided celled.automaton edge.id source target) ?_).mono
      fun graph hgains ↦ ⟨celled, hfold, hcelled, hgains⟩
  rintro edge - current ⟨_, hcurrent⟩
  have hsame : ∀ location, current.statesAt location = celled.statesAt location := fun location ↦
    congrArg (List.filter _) hcurrent.states_eq
  rw [hsame, hsame, ← hcurrent.automaton_eq]
  exact current.connectAll_gains edge.id _ _

theorem Celled.witnessed {automaton : Automaton} {precisions : PrecisionTable Precision}
    {celled : AbstractGraph} (hcelled : Celled automaton precisions celled)
    (hgains : celled.Gains graph celled.EdgeDecided) : graph.Witnessed := by
  obtain ⟨transitions, rfl, hmem⟩ := hgains
  intro transition htransition
  rcases (hmem transition).mp htransition with hbefore | ⟨edge, -, source, hsource, target,
    htarget, rfl, hdecided⟩
  · rw [hcelled.transitions_eq] at hbefore
    exact absurd hbefore List.not_mem_nil
  · exact ⟨source, (mem_statesAt_iff.mp hsource).1, target, (mem_statesAt_iff.mp htarget).1, rfl,
      hdecided⟩

/-! ### Splitting -/

/-- The graph after a state was replaced by pieces. The transitions between other states stay, and
all others were decided anew. -/
structure Splits (graph after : AbstractGraph) (old : AbstractState) (zones : List Zone)
    (pieces : List AbstractState) : Prop where
  stored : graph.state? old.id = some old
  added : (graph.without old.id).addStates old.location zones =
    .ok ({ after with transitions := (graph.without old.id).transitions }, pieces)
  kept : ∀ transition ∈ graph.transitions, transition.source ≠ old.id →
    transition.target ≠ old.id → transition ∈ after.transitions
  decided : ∀ transition ∈ after.transitions,
    (transition ∈ graph.transitions ∧ transition.source ≠ old.id ∧ transition.target ≠ old.id) ∨
      ∃ source ∈ after.states, ∃ target ∈ after.states,
        transition = ⟨source.id, transition.edge, target.id⟩ ∧
          Decided graph.automaton transition.edge source target

theorem id_of_state? {id : StateId} {state : AbstractState}
    (hstate : graph.state? id = some state) : state.id = id := by
  simpa using List.find?_some hstate

theorem splits_of_splitState {id : StateId} {old : AbstractState} {zones : List Zone}
    {pieces : List AbstractState} (hold : graph.state? id = some old)
    (hsplit : graph.splitState id zones = .ok (after, pieces)) :
    graph.Splits after old zones pieces := by
  obtain rfl := id_of_state? hold
  have hyields : Yields (fun _ ↦ True) (graph.splitState old.id zones) fun result ↦
      graph.Splits result.1 old zones result.2 := by
    rw [splitState_eq hold]
    refine ((graph.without old.id).addStates_appends old.location zones).bind_eq ?_
    rintro ⟨grown, added⟩ hadded happends
    have hautomaton : grown.automaton = graph.automaton := happends.automaton_eq
    refine (Gains.foldlM (fun touched transition ↦
      ∃ source ∈ grown.standIns old.id added touched.source,
        ∃ target ∈ grown.standIns old.id added touched.target,
          transition = ⟨source.id, touched.edge, target.id⟩ ∧
            Decided graph.automaton touched.edge source target) ?_).bind fun connected hgains ↦ ?_
    · rintro touched - current ⟨gained, hcurrent⟩
      change grown.Gains current gained at hcurrent
      have hstandIns : ∀ key, current.standIns old.id added key =
          grown.standIns old.id added key := by
        intro key
        simp only [standIns, state?, hcurrent.states_eq]
      have hconnects := current.connectAll_gains touched.edge
        (current.standIns old.id added touched.source)
        (current.standIns old.id added touched.target)
      rw [hcurrent.automaton_eq, hautomaton] at hconnects
      rwa [← hstandIns, ← hstandIns]
    obtain ⟨transitions, rfl, hmem⟩ := hgains
    have hstands : ∀ key, ∀ state ∈ grown.standIns old.id added key, state ∈ grown.states := by
      intro key state hstate
      unfold standIns at hstate
      split_ifs at hstate
      · rw [happends.states_eq]
        exact List.mem_append_right _ hstate
      · exact mem_of_state? (Option.mem_toList.mp hstate)
    refine ⟨hold, ?_, fun transition htransition hsource htarget ↦ ?_, fun transition h ↦ ?_⟩
    · rw [hadded, ← happends.transitions_eq]
    · refine (hmem transition).mpr (Or.inl ?_)
      rw [happends.transitions_eq, mem_without_transitions_iff]
      exact ⟨htransition, hsource, htarget⟩
    · rcases (hmem transition).mp h with hkept | ⟨touched, -, source, hsource, target, htarget,
        rfl, hdecided⟩
      · rw [happends.transitions_eq, mem_without_transitions_iff] at hkept
        exact Or.inl hkept
      · exact Or.inr ⟨source, hstands _ source hsource, target, hstands _ target htarget, rfl,
          hdecided⟩
  exact hyields.result hsplit

namespace Splits

variable {old : AbstractState} {zones : List Zone} {pieces : List AbstractState}
  (hsplits : graph.Splits after old zones pieces)

include hsplits

theorem mem_old : old ∈ graph.states := mem_of_state? hsplits.stored

theorem appends : (graph.without old.id).Appends
    { after with transitions := (graph.without old.id).transitions } old.location zones pieces :=
  (addStates_appends _ old.location zones).result hsplits.added

theorem automaton_eq : after.automaton = graph.automaton := hsplits.appends.automaton_eq

theorem precisions_eq : after.precisions = graph.precisions := hsplits.appends.precisions_eq

theorem lastPath_eq : after.lastPath = graph.lastPath := hsplits.appends.lastPath_eq

theorem mem_states_iff {state : AbstractState} :
    state ∈ after.states ↔ (state ∈ graph.states ∧ state.id ≠ old.id) ∨ state ∈ pieces := by
  have hstates : after.states = (graph.without old.id).states ++ pieces := hsplits.appends.states_eq
  rw [hstates, List.mem_append, mem_without_states_iff]

theorem zone_mem {piece : AbstractState} (hpiece : piece ∈ pieces) : piece.zone ∈ zones := by
  rw [← hsplits.appends.zones_eq]
  exact List.mem_map_of_mem hpiece

theorem le_nextId : graph.nextId.number ≤ after.nextId.number := hsplits.appends.le_nextId

theorem numbered (hnumbered : graph.Numbered) : after.Numbered := by
  have hsublist : (graph.without old.id).states.Sublist graph.states := List.filter_sublist
  have hfresh : ∀ state ∈ (graph.without old.id).states,
      state.id.number < (graph.without old.id).nextId.number := fun state hstate ↦
    hnumbered.fresh state (hsublist.subset hstate)
  exact ⟨hsplits.appends.distinct_append ((hsublist.map _).nodup hnumbered.distinct) hfresh,
    hsplits.appends.fresh_append hfresh⟩

/-- Transitions that were decided stay so, and the new ones are. -/
theorem witnessed (hwitnessed : graph.Witnessed) : after.Witnessed := by
  intro transition htransition
  rw [hsplits.automaton_eq]
  rcases hsplits.decided transition htransition with ⟨hbefore, hsourceNe, htargetNe⟩ | hdecided
  · obtain ⟨source, hsource, target, htarget, heq, hdecided⟩ := hwitnessed transition hbefore
    rw [heq] at hsourceNe htargetNe
    exact ⟨source, hsplits.mem_states_iff.mpr (Or.inl ⟨hsource, hsourceNe⟩), target,
      hsplits.mem_states_iff.mpr (Or.inl ⟨htarget, htargetNe⟩), heq, hdecided⟩
  · exact hdecided

end Splits

/-! ### Refining along a path -/

/-- Why a state of a path is left alone: it was split before, is not there, holds nothing, or is not
cut by the atoms of the formula. -/
def LeftAlone (progress : SplitProgress) (id : StateId) (formula : Formula) : Prop :=
  id ∈ progress.split ∨ progress.graph.state? id = none ∨
    ∃ state, progress.graph.state? id = some state ∧ (state.zone.isBottom = true ∨
      ∃ atoms partition, formula.zone.atoms = .ok atoms ∧
        state.zone.partitionBy atoms = .ok partition ∧ partition.pieces.length < 2)

/-- The graph with the precision at a location replaced. -/
def withPrecision (graph : AbstractGraph) (location : Location) (precision : Precision) :
    AbstractGraph :=
  { graph with precisions := graph.precisions.update [(location, precision)] }

/-- One position of a path is done. -/
inductive SplitStep (path : List StateId) (progress : SplitProgress) (position : Nat × Formula) :
    SplitProgress → Prop
  | spare {id : StateId} (hid : path[position.1]? = some id)
      (hleft : LeftAlone progress id position.2) : SplitStep path progress position progress
  | cut {id : StateId} {old : AbstractState} {atoms : List Constraint} {partition : Partition}
      {precision : Precision} {after : AbstractGraph} {pieces : List AbstractState}
      (hid : path[position.1]? = some id) (hnew : id ∉ progress.split)
      (hold : progress.graph.state? id = some old)
      (hatoms : position.2.zone.atoms = .ok atoms)
      (hpartition : old.zone.partitionBy atoms = .ok partition)
      (hseveral : 2 ≤ partition.pieces.length)
      (hprecision : progress.graph.precisions.precision? old.location = some precision)
      (hsplit : (progress.graph.withPrecision old.location
        (precision.join partition.used)).splitState id partition.pieces = .ok (after, pieces)) :
      SplitStep path progress position ⟨after, id :: progress.split, min progress.first position.1⟩

/-- One position is done, unless one of the computations it takes fails. -/
theorem splitAt_steps {may : Fault → Prop} {path : List StateId} {progress : SplitProgress}
    {position : Nat × Formula} (hposition : path[position.1]? = none → may .indexOutOfBounds)
    (hprecision : ∀ state ∈ progress.graph.states,
      progress.graph.precisions.precision? state.location = none →
        may (.noPrecision state.location))
    (hcut : ∀ id old, progress.graph.state? id = some old →
      Yields may position.2.zone.atoms fun atoms ↦
        Yields may (old.zone.partitionBy atoms) fun partition ↦ ∀ precision : Precision,
          Yields may ((progress.graph.withPrecision old.location
            (precision.join partition.used)).splitState id partition.pieces) fun _ ↦ True) :
    Yields may (splitAt path progress position) (SplitStep path progress position) := by
  unfold splitAt
  cases hid : path[position.1]? with
  | none => exact hposition hid
  | some id =>
    dsimp only
    by_cases hsplit : id ∈ progress.split
    · rw [if_pos hsplit]
      exact .spare hid (Or.inl hsplit)
    rw [if_neg hsplit]
    cases hstate : progress.graph.state? id with
    | none => exact .spare hid (Or.inr (Or.inl hstate))
    | some old =>
      dsimp only
      by_cases hbottom : old.zone.isBottom = true
      · rw [if_pos hbottom]
        exact .spare hid (Or.inr (Or.inr ⟨old, hstate, Or.inl hbottom⟩))
      rw [if_neg hbottom]
      refine (hcut id old hstate).bind_eq fun atoms hatoms hrest ↦ ?_
      refine hrest.bind_eq fun partition hpartition hrest ↦ ?_
      by_cases hfew : partition.pieces.length < 2
      · rw [if_pos hfew]
        exact .spare hid (Or.inr (Or.inr ⟨old, hstate, Or.inr
          ⟨atoms, partition, hatoms, hpartition, hfew⟩⟩))
      rw [if_neg hfew]
      refine (precision_yields (hprecision old (mem_of_state? hstate))).bind
        fun precision hfound ↦ (hrest precision).bind_eq ?_
      rintro ⟨after, pieces⟩ hafter -
      exact .cut hid hsplit hstate hatoms hpartition (not_lt.mp hfew) hfound hafter

theorem splitStep_of_splitAt {path : List StateId} {progress after : SplitProgress}
    {position : Nat × Formula} (hsplit : splitAt path progress position = .ok after) :
    SplitStep path progress position after := by
  have hsteps : Yields (fun _ ↦ True) (splitAt path progress position)
      (SplitStep path progress position) :=
    splitAt_steps (fun _ ↦ trivial) (fun _ _ _ ↦ trivial) fun _ _ _ ↦
      .of_forall fun _ _ ↦ .of_forall fun _ _ _ ↦ .any _
  exact hsteps.result hsplit

/-- What every position keeps, unless it fails, holds at the end of a refinement. -/
theorem splitAlong_keeps {may : Fault → Prop} {path : List StateId} {interpolant : Interpolant}
    (invariant : List (Nat × Formula) → SplitProgress → Prop)
    (hstart : invariant [] ⟨graph, [], path.length⟩)
    (hstep : ∀ done position rest, interpolant.formulas = done ++ position :: rest →
      ∀ progress, invariant done progress →
        Yields may (splitAt path progress position) (invariant (done ++ [position]))) :
    Yields may (graph.splitAlong path interpolant) fun result ↦
      ∃ progress, invariant interpolant.formulas progress ∧ progress.graph = result.1 ∧
        progress.first = result.2 :=
  (Yields.foldlM invariant hstart hstep).bind fun progress hprogress ↦
    ⟨progress, hprogress, rfl, rfl⟩

/-- What every step of a refinement keeps holds at its end. -/
theorem splitAlong_induction {path : List StateId} {interpolant : Interpolant} {first : Nat}
    (invariant : List (Nat × Formula) → SplitProgress → Prop)
    (hstart : invariant [] ⟨graph, [], path.length⟩)
    (hstep : ∀ done position rest, interpolant.formulas = done ++ position :: rest →
      ∀ progress next, invariant done progress → SplitStep path progress position next →
        invariant (done ++ [position]) next)
    (hsplit : graph.splitAlong path interpolant = .ok (after, first)) :
    ∃ progress, invariant interpolant.formulas progress ∧ progress.graph = after ∧
      progress.first = first := by
  have hkeeps : Yields (fun _ ↦ True) (graph.splitAlong path interpolant) fun result ↦
      ∃ progress, invariant interpolant.formulas progress ∧ progress.graph = result.1 ∧
        progress.first = result.2 := by
    refine splitAlong_keeps invariant hstart ?_
    intro done position rest hformulas progress hprogress
    refine .of_forall fun next hnext ↦ ?_
    exact hstep done position rest hformulas progress next hprogress (splitStep_of_splitAt hnext)
  exact hkeeps.result hsplit

/-- What holds while states of a path are split, from the start on. -/
structure Tracks (start : AbstractGraph) (path : List StateId) (done : List (Nat × Formula))
    (progress : SplitProgress) : Prop where
  numbered : progress.graph.Numbered
  lastPath_eq : progress.graph.lastPath = start.lastPath
  /-- New states are not highlighted. -/
  plain : ∀ state ∈ progress.graph.states, state ∈ start.states ∨ state.highlighted = false
  kept : ∀ state ∈ start.states, state.id ∉ progress.split → state ∈ progress.graph.states
  linked : ∀ transition ∈ start.transitions, transition.source ∉ progress.split →
    transition.target ∉ progress.split → transition ∈ progress.graph.transitions
  /-- A state that was split stands at a position that is done, not before the first split. -/
  placed : ∀ id ∈ progress.split, ∃ position ∈ done, path[position.1]? = some id ∧
    progress.first ≤ position.1
  untouched : progress.split = [] → progress.graph = start

theorem Tracks.start (hnumbered : graph.Numbered) (path : List StateId) :
    graph.Tracks path [] ⟨graph, [], path.length⟩ :=
  ⟨hnumbered, rfl, fun _ hstate ↦ Or.inl hstate, fun _ hstate _ ↦ hstate,
    fun _ htransition _ _ ↦ htransition, by simp, fun _ ↦ rfl⟩

/-- One more position keeps what holds while states are split. -/
theorem Tracks.step {start : AbstractGraph} {path : List StateId} {done : List (Nat × Formula)}
    {progress next : SplitProgress} {position : Nat × Formula}
    (htracks : start.Tracks path done progress) (hstep : SplitStep path progress position next) :
    start.Tracks path (done ++ [position]) next := by
  cases hstep with
  | spare =>
    refine ⟨htracks.numbered, htracks.lastPath_eq, htracks.plain, htracks.kept, htracks.linked,
      fun id hid ↦ ?_, htracks.untouched⟩
    obtain ⟨placed, hplaced, hposition⟩ := htracks.placed id hid
    exact ⟨placed, List.mem_append_left _ hplaced, hposition⟩
  | @cut id old _ partition precision after pieces hid hnew hold _ _ _ _ hsplit =>
    have hsplits : (progress.graph.withPrecision old.location
        (precision.join partition.used)).Splits after old partition.pieces pieces :=
      splits_of_splitState hold hsplit
    have hnumbered : (progress.graph.withPrecision old.location
        (precision.join partition.used)).Numbered :=
      ⟨htracks.numbered.distinct, htracks.numbered.fresh⟩
    obtain rfl := id_of_state? hold
    refine ⟨hsplits.numbered hnumbered, hsplits.lastPath_eq.trans htracks.lastPath_eq, ?_, ?_, ?_,
      ?_, nofun⟩
    · intro state hstate
      rcases hsplits.mem_states_iff.mp hstate with ⟨hbefore, -⟩ | hpiece
      · exact htracks.plain state hbefore
      · exact Or.inr (hsplits.appends.plain state hpiece)
    · intro state hstate hnot
      obtain ⟨hne, hnot⟩ := not_or.mp (List.mem_cons.not.mp hnot)
      exact hsplits.mem_states_iff.mpr (Or.inl ⟨htracks.kept state hstate hnot, hne⟩)
    · intro transition htransition hsource htarget
      obtain ⟨hsourceNe, hsource⟩ := not_or.mp (List.mem_cons.not.mp hsource)
      obtain ⟨htargetNe, htarget⟩ := not_or.mp (List.mem_cons.not.mp htarget)
      exact hsplits.kept transition (htracks.linked transition htransition hsource htarget)
        hsourceNe htargetNe
    · refine List.forall_mem_cons.mpr ⟨⟨position, by simp, hid, Nat.min_le_right _ _⟩, ?_⟩
      intro other hother
      obtain ⟨placed, hplaced, hat, hfirst⟩ := htracks.placed other hother
      exact ⟨placed, List.mem_append_left _ hplaced, hat, (Nat.min_le_left _ _).trans hfirst⟩

/-- A whole refinement. -/
theorem tracks_of_splitAlong (hnumbered : graph.Numbered) {path : List StateId}
    {interpolant : Interpolant} {first : Nat}
    (hsplit : graph.splitAlong path interpolant = .ok (after, first)) :
    ∃ progress, graph.Tracks path interpolant.formulas progress ∧ progress.graph = after ∧
      progress.first = first :=
  splitAlong_induction (graph.Tracks path) (.start hnumbered path)
    (fun _ _ _ _ _ _ htracks hstep ↦ htracks.step hstep) hsplit

end TimedSafety.AbstractGraph
