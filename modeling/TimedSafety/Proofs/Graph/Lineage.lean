import TimedSafety.Proofs.Graph.Resumption

/-!
What holds of a graph at any time after it was built, even if some resets are negative. An image
along such a reset can hold clocks below zero, so transitions need not say what they mean. But they
were all decided by images that were computed, the states are an exact partition, and the path that
is remembered repeats no state (`consistent_of_evolves`).
-/

set_option autoImplicit false

namespace TimedSafety.AbstractGraph

variable {automaton : Automaton} {graph after : AbstractGraph}

/-! ### Single changes -/

/-- The cells into which the zone of a state is cut. -/
theorem StatesExact.partition_by (hexact : graph.StatesExact) {state : AbstractState}
    (hstate : state ∈ graph.states) {atoms : List Constraint} {partition : Partition}
    (hpartition : state.zone.partitionBy atoms = .ok partition) :
    partition.By graph.automaton.clocks (· ∈ state.zone) atoms :=
  (Zone.partitionBy_exact tolerant_true (hexact.zoneSound hstate) fun _ atom _ _ ↦
    atom.tolerated_true _).result hpartition

/-- A split into a tiling keeps the partition exact. -/
theorem Splits.statesExact {old : AbstractState} {zones : List Zone} {pieces : List AbstractState}
    (hsplits : graph.Splits after old zones pieces) (hwell : graph.automaton.WellFormed)
    (hexact : graph.StatesExact)
    (htiles : Tiles zones graph.automaton.clocks (· ∈ old.zone)) : after.StatesExact := by
  have hrest : (graph.without old.id).automaton.WellFormed := hwell
  have hadds := (addStates_yields tolerant_true old.location
    (fun zone hzone ↦ htiles.denotes hzone) hrest rfl).result hsplits.added
  have hgrown := hexact.divide hsplits.stored htiles hadds
  exact ⟨hgrown.distinct, hgrown.fresh, hgrown.tiles, hgrown.flag⟩

/-- Marks do not matter for how transitions were decided. -/
theorem Witnessed.alike (hwitnessed : graph.Witnessed) (halike : graph.Alike after) :
    after.Witnessed := by
  intro transition htransition
  rw [halike.transitions_eq] at htransition
  obtain ⟨source, hsource, target, htarget, hends, move, image, hmove, himage, hmeets⟩ :=
    hwitnessed transition htransition
  obtain ⟨source', hsource', hsourceSame⟩ := halike.symm.exists_mem hsource
  obtain ⟨target', htarget', htargetSame⟩ := halike.symm.exists_mem htarget
  refine ⟨source', hsource', target', htarget', ?_, move, image, ?_, ?_, ?_⟩
  · rwa [hsourceSame.id, htargetSame.id]
  · rwa [halike.automaton_eq]
  · rwa [hsourceSame.zone]
  · rwa [htargetSame.zone]

/-! ### All changes -/

/-- What holds of a graph at any time, whatever the resets of its automaton are. -/
structure Consistent (automaton : Automaton) (graph : AbstractGraph) : Prop where
  automaton_eq : graph.automaton = automaton
  states : graph.StatesExact
  witnessed : graph.Witnessed
  simple : graph.lastPath.Nodup

namespace Consistent

variable (hconsistent : graph.Consistent automaton)

include hconsistent

theorem alike (halike : graph.Alike after) (hsimple : after.lastPath.Nodup) :
    after.Consistent automaton :=
  ⟨halike.automaton_eq.trans hconsistent.automaton_eq, hconsistent.states.alike halike,
    hconsistent.witnessed.alike halike, hsimple⟩

theorem withPrecision (location : Location) (precision : Precision) :
    (graph.withPrecision location precision).Consistent automaton :=
  ⟨hconsistent.automaton_eq, ⟨hconsistent.states.distinct, hconsistent.states.fresh,
    hconsistent.states.tiles, hconsistent.states.flag⟩, hconsistent.witnessed, hconsistent.simple⟩

/-- A transition between two states was decided for them. -/
theorem decided {source target : AbstractState} (hsource : source ∈ graph.states)
    (htarget : target ∈ graph.states) {edge : EdgeId}
    (htransition : ⟨source.id, edge, target.id⟩ ∈ graph.transitions) :
    Decided automaton edge source target := by
  obtain ⟨first, hfirst, second, hsecond, hends, hdecided⟩ :=
    hconsistent.witnessed _ htransition
  obtain ⟨hfirstId, -, hsecondId⟩ := Transition.mk.inj hends
  obtain rfl := hconsistent.states.eq_of_id hsource hfirst hfirstId
  obtain rfl := hconsistent.states.eq_of_id htarget hsecond hsecondId
  exact hconsistent.automaton_eq ▸ hdecided

theorem splits (hwell : automaton.WellFormed) {old : AbstractState} {zones : List Zone}
    {pieces : List AbstractState} (hsplits : graph.Splits after old zones pieces)
    (htiles : Tiles zones graph.automaton.clocks (· ∈ old.zone)) : after.Consistent automaton := by
  refine ⟨hsplits.automaton_eq.trans hconsistent.automaton_eq, ?_,
    hsplits.witnessed hconsistent.witnessed, ?_⟩
  · exact hsplits.statesExact (by rwa [hconsistent.automaton_eq]) hconsistent.states htiles
  · rw [hsplits.lastPath_eq]
    exact hconsistent.simple

end Consistent

/-- One position of a refinement keeps the graph consistent. -/
theorem SplitStep.consistent {path : List StateId} {progress next : SplitProgress}
    {position : Nat × Formula} (hstep : SplitStep path progress position next)
    (hwell : automaton.WellFormed) (hconsistent : progress.graph.Consistent automaton) :
    next.graph.Consistent automaton := by
  cases hstep with
  | spare => exact hconsistent
  | cut _ _ hold _ hpartition _ _ hsplit =>
    exact (hconsistent.withPrecision _ _).splits hwell (splits_of_splitState hold hsplit)
      (hconsistent.states.partition_by (mem_of_state? hold) hpartition).tiles

/-- The cells from which a graph was built. -/
theorem cellsExact_of_build {precisions : PrecisionTable Precision}
    (hwell : automaton.WellFormed) (hbuild : build automaton precisions = .ok graph) :
    ∃ celled, CellsExact automaton precisions automaton.locations celled ∧
      Celled automaton precisions celled ∧ celled.Gains graph celled.EdgeDecided := by
  obtain ⟨celled, hfold, hcelled, hgains⟩ := (build_gains automaton precisions).result hbuild
  have hcells := (cellsExact_yields tolerant_true hwell
    ⟨fun _ _ _ ↦ trivial, fun _ _ _ _ atom _ _ ↦ atom.tolerated_true _⟩).result hfold
  exact ⟨celled, hcells, hcelled, hgains⟩

theorem consistent_of_build {precisions : PrecisionTable Precision}
    (hwell : automaton.WellFormed) (hbuild : build automaton precisions = .ok graph) :
    graph.Consistent automaton := by
  obtain ⟨celled, hcells, hcelled, hgains⟩ := cellsExact_of_build hwell hbuild
  refine ⟨hgains.automaton_eq.trans hcells.automaton_eq, hgains.statesExact hcells.statesExact,
    hcelled.witnessed hgains, ?_⟩
  obtain ⟨_, rfl, -⟩ := hgains
  exact hcelled.lastPath_eq ▸ List.nodup_nil

theorem Evolves.consistent (hevolves : Evolves graph after) (hwell : automaton.WellFormed)
    (hconsistent : graph.Consistent automaton) : after.Consistent automaton := by
  cases hevolves with
  | search hsearch =>
    exact hconsistent.alike (alike_of_findPath hsearch)
      (nodup_lastPath_of_findPath hconsistent.states.distinct hconsistent.simple hsearch)
  | mark path highlighted resumeAt =>
    refine hconsistent.alike ((alike_setHighlights graph path highlighted).remember _ resumeAt) ?_
    rw [setHighlights_lastPath]
    exact hconsistent.simple
  | refine hsplit =>
    obtain ⟨progress, hprogress, rfl, -⟩ := splitAlong_induction
      (fun _ (progress : SplitProgress) ↦ progress.graph.Consistent automaton) hconsistent
      (fun _ _ _ _ _ _ hprogress hstep ↦ hstep.consistent hwell hprogress) hsplit
    exact hprogress
  | split hold htiles hsplit =>
    exact hconsistent.splits hwell (splits_of_splitState hold hsplit) htiles

/-- At any time after it was built, a graph is consistent. -/
theorem consistent_of_evolves {precisions : PrecisionTable Precision} {start : AbstractGraph}
    (hwell : automaton.WellFormed) (hbuild : build automaton precisions = .ok start)
    (hevolves : Relation.ReflTransGen Evolves start graph) : graph.Consistent automaton := by
  induction hevolves with
  | refl => exact consistent_of_build hwell hbuild
  | tail _ hstep ih => exact hstep.consistent hwell ih

end TimedSafety.AbstractGraph
