import TimedSafety.Proofs.Graph.Lineage

/-!
The precisions of a graph explain its states. Atoms are recorded by location, while states are cut
one by one and in different orders. Still, the atoms of a location decide between its states: a
state holds every allowed valuation on which they agree with one of its own (`Explained`). So each
cell of a recorded precision lies in a single state. A refinement only adds atoms, at the locations
of states that it cuts (`Sharpens`); and a graph that is built anew from the recorded precisions
refines the partition (`partitionExplained_of_develops`), if building it does not overflow
(`ring_rebuild_overflows`).
-/

set_option autoImplicit false

namespace TimedSafety.AbstractGraph

variable {automaton : Automaton} {graph after : AbstractGraph} {may : Fault → Prop}

/-! ### What the atoms decide -/

/-- Every location has a precision, with clocks in range where there is something to cut. States are
determined by the atoms of the precision at their location. -/
structure Explained (graph : AbstractGraph) : Prop where
  precise : ∀ location ∈ graph.automaton.locations, ∃ precision,
    graph.precisions.precision? location = some precision
  within : ∀ location precision, graph.precisions.precision? location = some precision →
    (∃ valuation, graph.automaton.Allows location valuation) → ∀ atom ∈ precision.atoms,
      atom.isAtom = true → atom.Within graph.automaton.clocks
  determined : ∀ state ∈ graph.states, ∀ precision,
    graph.precisions.precision? state.location = some precision →
      state.zone.Determined precision.atoms (graph.automaton.Allows state.location)

/-- Cells are determined by the atoms that cut them. -/
theorem CellsExact.explained {precisions : PrecisionTable Precision}
    (hcells : CellsExact automaton precisions automaton.locations graph) : graph.Explained := by
  obtain rfl := hcells.automaton_eq
  obtain rfl := hcells.precisions_eq
  refine ⟨fun location hlocation ↦ ?_, fun location precision hprecision hsome ↦ ?_,
    fun state hstate precision hprecision ↦ ?_⟩
  · obtain ⟨precision, _, hprecision, -⟩ := hcells.cells location hlocation
    exact ⟨precision, hprecision⟩
  · obtain ⟨valuation, hallows⟩ := id hsome
    obtain ⟨found, partition, hfound, -, hby⟩ := hcells.cells location hallows.mem_locations
    obtain rfl := Option.some.inj (hprecision.symm.trans hfound)
    exact hby.within hsome
  · obtain ⟨found, partition, hfound, hzones, hby⟩ :=
      hcells.cells state.location (hcells.elsewhere state hstate)
    obtain rfl := Option.some.inj (hprecision.symm.trans hfound)
    have hpiece := mem_zonesAt hstate
    rw [hzones] at hpiece
    exact (hby.determined state.zone hpiece).subset fun atom hatom ↦ (hby.used atom hatom).1

namespace Explained

theorem gains (hexplained : graph.Explained) {gained : Transition → Prop}
    (hgains : graph.Gains after gained) : after.Explained := by
  obtain ⟨_, rfl, -⟩ := hgains
  exact ⟨hexplained.precise, hexplained.within, hexplained.determined⟩

theorem alike (hexplained : graph.Explained) (halike : graph.Alike after) : after.Explained := by
  constructor
  · rw [halike.automaton_eq, halike.precisions_eq]
    exact hexplained.precise
  · rw [halike.automaton_eq, halike.precisions_eq]
    exact hexplained.within
  · intro state hstate
    obtain ⟨former, hformer, hsame⟩ := halike.exists_mem hstate
    rw [halike.automaton_eq, halike.precisions_eq, ← hsame.location, ← hsame.zone]
    exact hexplained.determined former hformer

/-- A cell of the recorded precision lies in just one state. -/
theorem existsUnique_state (hexplained : graph.Explained) (hexact : graph.StatesExact)
    {location : Location} {precision : Precision} {partition : Partition}
    (hprecision : graph.precisions.precision? location = some precision)
    (hby : partition.By graph.automaton.clocks (graph.automaton.Allows location) precision.atoms)
    {cell : Zone} (hcell : cell ∈ partition.pieces) :
    ∃! state, state ∈ graph.statesAt location ∧ ∀ valuation ∈ cell, valuation ∈ state.zone := by
  obtain ⟨inside, hinside⟩ := hby.tiles.exists_mem hcell
  obtain ⟨state, hstate, rfl, hmem⟩ := hexact.exists_state (hby.tiles.subset hcell hinside)
  refine ⟨state, ⟨mem_statesAt_iff.mpr ⟨hstate, rfl⟩, fun valuation hvaluation ↦ ?_⟩, ?_⟩
  · exact hexplained.determined state hstate precision hprecision inside hmem valuation
      (hby.tiles.subset hcell hvaluation) (hby.uniform.agreeOn hcell hinside hvaluation)
  · rintro other ⟨hother, hsubset⟩
    obtain ⟨hother, hlocation⟩ := mem_statesAt_iff.mp hother
    exact hexact.eq_of_mem hother hstate hlocation (hsubset inside hinside) hmem

end Explained

/-! ### Refining -/

/-- After a cut, the atoms that cut are added to the precision at the location of the state. -/
theorem Splits.precision?_eq {old : AbstractState} {zones : List Zone}
    {pieces : List AbstractState} {precision : Precision}
    (hsplits : (graph.withPrecision old.location precision).Splits after old zones pieces)
    (location : Location) : after.precisions.precision? location =
      if location = old.location then some precision else graph.precisions.precision? location := by
  rw [hsplits.precisions_eq]
  exact PrecisionTable.precision?_update _ _ _ _

/-- Pieces are determined by the atoms of their state and those that cut it. -/
theorem SplitStep.explained {path : List StateId} {progress next : SplitProgress}
    {position : Nat × Formula} (hstep : SplitStep path progress position next)
    (hexact : progress.graph.StatesExact) (hexplained : progress.graph.Explained) :
    next.graph.Explained := by
  cases hstep with
  | spare => exact hexplained
  | @cut id old atoms partition precision after pieces _ _ hold _ hpartition _ hprecision hsplit =>
    have hsplits : (progress.graph.withPrecision old.location
        (precision.join partition.used)).Splits after old partition.pieces pieces :=
      splits_of_splitState hold hsplit
    have hmem := mem_of_state? hold
    have hby := hexact.partition_by hmem hpartition
    have hautomaton : after.automaton = progress.graph.automaton := hsplits.automaton_eq
    have hjoined : precision.atoms ⊆ (precision.join partition.used).atoms := fun atom hatom ↦
      Precision.mem_join_iff.mpr (Or.inl hatom)
    dsimp only
    constructor
    case precise =>
      intro location hlocation
      rw [hautomaton] at hlocation
      rw [hsplits.precision?_eq]
      split_ifs
      · exact ⟨_, rfl⟩
      · exact hexplained.precise location hlocation
    case within =>
      intro location found hfound hsome atom hatom hisAtom
      rw [hautomaton] at hsome ⊢
      rw [hsplits.precision?_eq] at hfound
      split_ifs at hfound with hlocation
      · obtain rfl := Option.some.inj hfound
        rcases Precision.mem_join_iff.mp hatom with hbefore | ⟨hused, -⟩
        · exact hexplained.within old.location precision hprecision (hlocation ▸ hsome) atom hbefore
            hisAtom
        · exact hby.within ((hexact.tiles old.location).exists_mem (mem_zonesAt hmem)) atom
            (hby.used atom hused).1 hisAtom
      · exact hexplained.within location found hfound hsome atom hatom hisAtom
    case determined =>
      intro state hstate found hfound
      rw [hsplits.precision?_eq] at hfound
      rw [hautomaton]
      rcases hsplits.mem_states_iff.mp hstate with ⟨hkept, -⟩ | hpiece
      · split_ifs at hfound with hlocation
        · obtain rfl := Option.some.inj hfound
          refine (hexplained.determined state hkept precision ?_).subset hjoined
          rw [hlocation, hprecision]
        · exact hexplained.determined state hkept found hfound
      · have hlocation := hsplits.appends.location_eq state hpiece
        have hzone := hsplits.zone_mem hpiece
        rw [if_pos hlocation] at hfound
        obtain rfl := Option.some.inj hfound
        rw [hlocation]
        refine (hexplained.determined old hmem precision hprecision).part
          (hby.determined state.zone hzone)
          (fun valuation hvaluation ↦ hby.tiles.subset hzone hvaluation) hjoined ?_
        exact fun atom hatom ↦ Precision.mem_join_iff.mpr (Or.inr ⟨hatom, (hby.used atom hatom).2⟩)

/-- A state of the path at the location is gone. -/
def CutAt (path : List StateId) (graph after : AbstractGraph) (location : Location) : Prop :=
  ∃ state ∈ graph.statesAt location, state.id ∈ path ∧ state ∉ after.states

/-- From one graph to another, every precision only gains atoms, and it is the same unless a state
of the path at its location is gone. -/
structure Sharpens (path : List StateId) (graph after : AbstractGraph) : Prop where
  gains : ∀ location precision, graph.precisions.precision? location = some precision →
    ∃ sharper, after.precisions.precision? location = some sharper ∧
      precision.atoms ⊆ sharper.atoms ∧
      ∀ constraint ∈ sharper.atoms, constraint ∈ precision.atoms ∨ constraint.isAtom = true
  changed : ∀ location, after.precisions.precision? location =
    graph.precisions.precision? location ∨ graph.CutAt path after location

/-- What holds of precisions while states are split, from the start on. States that were not there
at the start stem from one that is gone. -/
structure Sharpening (path : List StateId) (start graph : AbstractGraph) : Prop extends
    Sharpens path start graph where
  le_nextId : start.nextId.number ≤ graph.nextId.number
  stems : ∀ state ∈ graph.states, state ∈ start.states ∨ start.CutAt path graph state.location

theorem Sharpening.start (path : List StateId) (graph : AbstractGraph) :
    graph.Sharpening path graph where
  gains _ precision hprecision := ⟨precision, hprecision, List.Subset.refl _, fun _ ↦ Or.inl⟩
  changed _ := Or.inl rfl
  le_nextId := le_rfl
  stems _ hstate := Or.inl hstate

/-- A state is not among those that were added after it. -/
theorem Splits.not_mem {old gone : AbstractState} {zones : List Zone}
    {pieces : List AbstractState} (hsplits : graph.Splits after old zones pieces)
    (hfresh : gone.id.number < graph.nextId.number)
    (hgone : gone ∉ graph.states ∨ gone.id = old.id) : gone ∉ after.states := by
  intro hmem
  rcases hsplits.mem_states_iff.mp hmem with ⟨hkept, hother⟩ | hpiece
  · exact hgone.elim (fun hnone ↦ hnone hkept) hother
  · exact absurd hfresh (not_lt.mpr (hsplits.appends.le_id gone hpiece))

theorem SplitStep.sharpening {path : List StateId} {progress next : SplitProgress}
    {position : Nat × Formula} (hstep : SplitStep path progress position next)
    {start : AbstractGraph} (hstart : start.StatesExact) (hexact : progress.graph.StatesExact)
    (hsharpening : start.Sharpening path progress.graph) :
    start.Sharpening path next.graph := by
  cases hstep with
  | spare => exact hsharpening
  | @cut id old atoms partition precision after pieces hid _ hold _ hpartition _ hprecision
      hsplit =>
    have hsplits : (progress.graph.withPrecision old.location
        (precision.join partition.used)).Splits after old partition.pieces pieces :=
      splits_of_splitState hold hsplit
    have hmem := mem_of_state? hold
    have hkeep : ∀ location, start.CutAt path progress.graph location →
        start.CutAt path after location := by
      rintro location ⟨gone, hgone, hpath, hnone⟩
      have hfresh := hstart.fresh gone (mem_statesAt_iff.mp hgone).1
      exact ⟨gone, hgone, hpath,
        hsplits.not_mem (hfresh.trans_le hsharpening.le_nextId) (Or.inl hnone)⟩
    have hcut : start.CutAt path after old.location := by
      rcases hsharpening.stems old hmem with hbefore | hgone
      · refine ⟨old, mem_statesAt_iff.mpr ⟨hbefore, rfl⟩, ?_,
          hsplits.not_mem (hexact.fresh old hmem) (Or.inr rfl)⟩
        rw [id_of_state? hold]
        exact List.mem_of_getElem? hid
      · exact hkeep _ hgone
    dsimp only
    refine ⟨⟨?gains, ?changed⟩, ?le_nextId, ?stems⟩
    case gains =>
      intro location found hfound
      obtain ⟨sharper, hsharper, hsubset, hadded⟩ := hsharpening.gains location found hfound
      rw [hsplits.precision?_eq]
      split_ifs with hlocation
      · rw [hlocation, hprecision] at hsharper
        obtain rfl := Option.some.inj hsharper
        refine ⟨_, rfl, fun atom hatom ↦ ?_, fun atom hatom ↦ ?_⟩
        · exact Precision.mem_join_iff.mpr (Or.inl (hsubset hatom))
        · rcases Precision.mem_join_iff.mp hatom with hbefore | ⟨-, hisAtom⟩
          · exact hadded atom hbefore
          · exact Or.inr hisAtom
      · exact ⟨sharper, hsharper, hsubset, hadded⟩
    case changed =>
      intro location
      rw [hsplits.precision?_eq]
      split_ifs with hlocation
      · exact Or.inr (hlocation ▸ hcut)
      · exact (hsharpening.changed location).imp_right (hkeep location)
    case le_nextId => exact hsharpening.le_nextId.trans hsplits.le_nextId
    case stems =>
      intro state hstate
      rcases hsplits.mem_states_iff.mp hstate with ⟨hkept, -⟩ | hpiece
      · exact (hsharpening.stems state hkept).imp_right (hkeep _)
      · rw [hsplits.appends.location_eq state hpiece]
        exact Or.inr hcut

/-- A refinement keeps states explained, and only adds atoms where it cuts. -/
theorem explained_of_splitAlong (hwell : automaton.WellFormed)
    (hconsistent : graph.Consistent automaton) (hexplained : graph.Explained)
    {path : List StateId} {interpolant : Interpolant} {first : Nat}
    (hsplit : graph.splitAlong path interpolant = .ok (after, first)) :
    after.Explained ∧ graph.Sharpens path after := by
  have hstep : ∀ (progress next : SplitProgress) (position : Nat × Formula),
      progress.graph.Consistent automaton ∧ progress.graph.Explained ∧
        graph.Sharpening path progress.graph → SplitStep path progress position next →
      next.graph.Consistent automaton ∧ next.graph.Explained ∧
        graph.Sharpening path next.graph := by
    rintro progress next position ⟨hprogress, hexplained, hsharpening⟩ hstep
    exact ⟨hstep.consistent hwell hprogress, hstep.explained hprogress.states hexplained,
      hstep.sharpening hconsistent.states hprogress.states hsharpening⟩
  obtain ⟨progress, ⟨-, hafter, hsharpening⟩, rfl, -⟩ := splitAlong_induction
    (fun _ (progress : SplitProgress) ↦ progress.graph.Consistent automaton ∧
      progress.graph.Explained ∧ graph.Sharpening path progress.graph)
    ⟨hconsistent, hexplained, .start path graph⟩
    (fun _ position _ _ progress next ↦ hstep progress next position) hsplit
  exact ⟨hafter, hsharpening.toSharpens⟩

/-! ### Building anew -/

/-- If both ends of the edge allow something, its constants cause no fault but admitted ones. -/
def EdgeChecked (may : Fault → Prop) (automaton : Automaton) (edge : Edge) : Prop :=
  (∃ valuation, automaton.Allows edge.source valuation) →
    (∃ valuation, automaton.Allows edge.target valuation) →
      ∀ move, automaton.move edge.id = .ok move → move.ConstantsTolerated may

/-- Connecting states checks the constants along the edge. -/
theorem connectAll_checks (graph : AbstractGraph) (edge : EdgeId)
    {sources targets : List AbstractState} (hsources : sources ≠ []) (htargets : targets ≠ []) :
    Yields (fun _ ↦ True) (graph.connectAll edge sources targets) fun _ ↦
      ∀ move, graph.automaton.move edge = .ok move → move.InRange := by
  have hconnect : ∀ source target, Yields (fun _ ↦ True) (graph.connect edge source target) fun _ ↦
      ∀ move, graph.automaton.move edge = .ok move → move.InRange := by
    intro source target
    unfold connect
    cases hmove : graph.automaton.move edge with
    | error fault => trivial
    | ok move =>
      refine (move.post_inRange source.zone).bind fun image hrange ↦ .of_forall fun _ _ ↦ ?_
      rintro _ ⟨⟩
      exact hrange
  obtain ⟨source, moreSources, rfl⟩ := List.exists_cons_of_ne_nil hsources
  obtain ⟨target, moreTargets, rfl⟩ := List.exists_cons_of_ne_nil htargets
  -- The first pair is enough.
  rw [connectAll, List.foldlM_cons, List.foldlM_cons, bind_assoc]
  exact (hconnect source target).bind fun _ hrange ↦ .of_forall fun _ _ ↦ hrange

/-- A location that allows something has a state. -/
theorem StatesExact.statesAt_ne_nil (hexact : graph.StatesExact) {location : Location}
    (hsome : ∃ valuation, graph.automaton.Allows location valuation) :
    graph.statesAt location ≠ [] := by
  obtain ⟨valuation, hallows⟩ := hsome
  obtain ⟨state, hstate, hlocation, -⟩ := hexact.exists_state hallows
  exact List.ne_nil_of_mem (mem_statesAt_iff.mpr ⟨hstate, hlocation⟩)

/-- Where a graph was built, the constants of all edges that matter were checked. -/
theorem edgeChecked_of_build {precisions : PrecisionTable Precision}
    (hwell : automaton.WellFormed) (hbuild : build automaton precisions = .ok graph) :
    ∀ edge ∈ automaton.edges, EdgeChecked may automaton edge := by
  have hyields : Yields (fun _ ↦ True) (build automaton precisions) fun _ ↦
      ∀ edge ∈ automaton.edges, EdgeChecked may automaton edge := by
    refine (cellsExact_yields tolerant_true hwell
      ⟨fun _ _ _ ↦ trivial, fun _ _ _ _ atom _ _ ↦ atom.tolerated_true _⟩).bind
        fun celled hcells ↦ ?_
    obtain rfl := hcells.automaton_eq
    refine (Yields.foldlM (fun done (current : AbstractGraph) ↦
      (∃ gained, celled.Gains current gained) ∧
        ∀ edge ∈ done, EdgeChecked may celled.automaton edge)
      ⟨⟨_, .refl celled⟩, by simp⟩ ?_).mono fun _ hdone ↦ hdone.2
    rintro done edge rest - current ⟨⟨_, hcurrent⟩, hdone⟩
    have hexact := hcurrent.statesExact hcells.statesExact
    have hedge : Yields (fun _ ↦ True) (current.connectAll edge.id (current.statesAt edge.source)
        (current.statesAt edge.target)) fun _ ↦ EdgeChecked may celled.automaton edge := by
      refine .of_forall fun after hafter hsource htarget move hmove ↦ ?_
      rw [← hcurrent.automaton_eq] at hsource htarget hmove
      exact ((current.connectAll_checks edge.id (hexact.statesAt_ne_nil hsource)
        (hexact.statesAt_ne_nil htarget)).result hafter move hmove).tolerated may
    refine ((current.connectAll_gains edge.id _ _).and hedge).mono ?_
    rintro after ⟨hgains, hchecked⟩
    exact ⟨⟨_, hcurrent.trans hgains⟩,
      List.forall_mem_append.mpr ⟨hdone, List.forall_mem_singleton.mpr hchecked⟩⟩
  exact hyields.result hbuild

/-- With the constants of the edge in range, states are connected unless there is an overflow; else
there may be the faults for these. -/
theorem connectAll_computed (hmay : Tolerant may) (hwell : graph.automaton.WellFormed)
    {edge : EdgeId} {move : Move} (hmove : graph.automaton.move edge = .ok move)
    {sources targets : List AbstractState}
    (hsources : ∀ source ∈ sources, ZoneSound graph.automaton.clocks source)
    (htargets : ∀ target ∈ targets, ZoneSound graph.automaton.clocks target)
    (hconstants : sources ≠ [] → targets ≠ [] → move.ConstantsTolerated may) :
    Yields may (graph.connectAll edge sources targets) fun _ ↦ True := by
  have hconnect : ∀ source ∈ sources, ∀ target ∈ targets, ∀ current : AbstractGraph,
      current.automaton = graph.automaton →
        Yields may (current.connect edge source target) (·.automaton = graph.automaton) := by
    intro source hsource target htarget current hcurrent
    have hcomputed : Yields may (current.connect edge source target) fun _ ↦ True := by
      have hzone := hsources source hsource
      rw [connect, hcurrent, hmove]
      refine (Move.post_level hmay hzone.canonical.wellFormed.level
        (hzone.clocks_eq ▸ hwell.moveWithin hmove)
        (hconstants (List.ne_nil_of_mem hsource) (List.ne_nil_of_mem htarget))).bind ?_
      rintro image ⟨hclocks, hlevel⟩
      exact (Zone.meets_level hmay (hclocks.trans hzone.clocks_eq) hlevel
        (htargets target htarget)).bind fun _ _ ↦ trivial
    refine (hcomputed.and (current.connect_gains edge source target)).mono fun after hafter ↦ ?_
    exact hafter.2.automaton_eq.trans hcurrent
  have hall : Yields may (graph.connectAll edge sources targets) (·.automaton = graph.automaton) :=
    Yields.foldlM_const rfl fun source hsource _ houter ↦
      Yields.foldlM_const houter fun target htarget current hcurrent ↦
        hconnect source hsource target htarget current hcurrent
  exact hall.mono fun _ _ ↦ trivial

/-- With all constants that matter in range, building can only overflow; else there may be the
faults for these. -/
theorem build_cells_yields (hmay : Tolerant may) {precisions : PrecisionTable Precision}
    (hwell : automaton.WellFormed) (hprecisions : CellsTolerated may automaton precisions)
    (hedges : ∀ edge ∈ automaton.edges, EdgeChecked may automaton edge) :
    Yields may (build automaton precisions) fun graph ↦ ∃ celled gained,
      CellsExact automaton precisions automaton.locations celled ∧ celled.Gains graph gained := by
  refine (cellsExact_yields hmay hwell hprecisions).bind fun celled hcells ↦ ?_
  obtain rfl := hcells.automaton_eq
  have hfold : Yields may (celled.automaton.edges.foldlM (fun graph edge ↦
      graph.connectAll edge.id (graph.statesAt edge.source) (graph.statesAt edge.target)) celled)
      fun graph ↦ ∃ gained, celled.Gains graph gained := by
    refine Yields.foldlM_const ⟨_, .refl celled⟩ ?_
    rintro edge hedge current ⟨_, hcurrent⟩
    have hexact := hcurrent.statesExact hcells.statesExact
    have hautomaton := hcurrent.automaton_eq
    obtain ⟨move, hmove, hof⟩ := Automaton.exists_move hwell hedge
    have hsound : ∀ location, ∀ state ∈ current.statesAt location,
        ZoneSound current.automaton.clocks state := fun location state hstate ↦
      hexact.zoneSound (mem_statesAt_iff.mp hstate).1
    have hallows : ∀ location, current.statesAt location ≠ [] →
        ∃ valuation, celled.automaton.Allows location valuation := by
      intro location hsome
      obtain ⟨state, hstate⟩ := List.exists_mem_of_ne_nil _ hsome
      obtain ⟨hmem, rfl⟩ := mem_statesAt_iff.mp hstate
      obtain ⟨valuation, hvaluation⟩ := (hexact.tiles _).exists_mem (mem_zonesAt hmem)
      exact ⟨valuation, hautomaton ▸ hexact.allows hmem hvaluation⟩
    have hcomputed := connectAll_computed hmay (by rwa [hautomaton]) (by rwa [hautomaton])
      (hsound edge.source) (hsound edge.target) fun hsources htargets ↦
        hedges edge hedge (hallows _ hsources) (hallows _ htargets) move hmove
    refine (hcomputed.and (current.connectAll_gains edge.id _ _)).mono fun after hafter ↦ ?_
    exact ⟨_, hcurrent.trans hafter.2⟩
  exact hfold.mono fun graph ⟨gained, hgains⟩ ↦ ⟨celled, gained, hcells, hgains⟩

/-! ### At any time -/

/-- A search, a change of marks, or a refinement along any path by any interpolant. Unlike a split
by hand, each of these records the atoms by which it cuts. -/
inductive Develops : AbstractGraph → AbstractGraph → Prop
  | search {graph after : AbstractGraph} {found : Option (List StateId)}
      (hsearch : graph.findPath = .ok (after, found)) : Develops graph after
  | mark (graph : AbstractGraph) (path : List StateId) (highlighted : Bool) (resumeAt : Nat) :
      Develops graph { graph.setHighlights path highlighted with resumeAt }
  | refine {graph after : AbstractGraph} {path : List StateId} {interpolant : Interpolant}
      {first : Nat} (hsplit : graph.splitAlong path interpolant = .ok (after, first)) :
      Develops graph after

theorem Develops.evolves (hdevelops : Develops graph after) : Evolves graph after := by
  cases hdevelops with
  | search hsearch => exact .search hsearch
  | mark path highlighted resumeAt => exact .mark graph path highlighted resumeAt
  | refine hsplit => exact .refine hsplit

theorem Develops.explained (hdevelops : Develops graph after) (hwell : automaton.WellFormed)
    (hconsistent : graph.Consistent automaton) (hexplained : graph.Explained) :
    after.Explained := by
  cases hdevelops with
  | search hsearch => exact hexplained.alike (alike_of_findPath hsearch)
  | mark path highlighted resumeAt =>
    exact hexplained.alike ((alike_setHighlights graph path highlighted).remember _ resumeAt)
  | refine hsplit => exact (explained_of_splitAlong hwell hconsistent hexplained hsplit).1

/-- The recorded precisions explain the partition of the graph into states. -/
structure PartitionExplained (graph : AbstractGraph) : Prop where
  /-- Every cell that the precision of a location cuts out of its invariant lies in the zone of just
  one state there. Cutting the cells can only overflow. -/
  cells : ∀ location ∈ graph.automaton.locations, ∃ precision allowed,
    graph.precisions.precision location = .ok precision ∧
    graph.automaton.invariantZone location = .ok allowed ∧
    Yields Fault.IsOverflow (precision.cells allowed) fun cells ↦ ∀ cell ∈ cells,
      ∃! state, state ∈ graph.statesAt location ∧ ∀ valuation ∈ cell, valuation ∈ state.zone
  /-- A refinement only adds atoms, at the locations of the states that it cuts. -/
  splits : ∀ path interpolant after first,
    graph.splitAlong path interpolant = .ok (after, first) → graph.Sharpens path after
  /-- Building anew from the recorded precisions gives a partition that refines this one, or
  overflows. -/
  rebuilt : Yields Fault.IsOverflow (build graph.automaton graph.precisions) fun rebuilt ↦
    ∀ location, Tiles (rebuilt.zonesAt location) graph.automaton.clocks
        (graph.automaton.Allows location) ∧
      ∀ fine ∈ rebuilt.statesAt location, ∃! state, state ∈ graph.statesAt location ∧
        ∀ valuation ∈ fine.zone, valuation ∈ state.zone

theorem Explained.cellsTolerated (hexplained : graph.Explained) (may : Fault → Prop) :
    CellsTolerated may graph.automaton graph.precisions where
  missing location hlocation hnone := by
    obtain ⟨precision, hprecision⟩ := hexplained.precise location hlocation
    rw [hnone] at hprecision
    contradiction
  atoms location precision hprecision hsome atom hatom hisAtom :=
    (hexplained.within location precision hprecision hsome atom hatom hisAtom).tolerated may

/-- At any time after it was built, the partition of a graph is explained by the precisions that are
recorded in it, whatever was searched for and by whatever interpolants it was refined. -/
theorem partitionExplained_of_develops {draft : AutomatonDraft}
    (hdraft : draft.build = .ok automaton) {precisions : PrecisionTable Precision}
    {start : AbstractGraph} (hbuild : build automaton precisions = .ok start)
    (hdevelops : Relation.ReflTransGen Develops start graph) :
    graph.automaton = automaton ∧ graph.PartitionExplained := by
  have hwell := AutomatonDraft.wellFormed_of_build hdraft
  obtain ⟨celled, hcells, -, hgains⟩ := cellsExact_of_build hwell hbuild
  have hinvariant : graph.Consistent automaton ∧ graph.Explained := by
    induction hdevelops with
    | refl => exact ⟨consistent_of_build hwell hbuild, hcells.explained.gains hgains⟩
    | tail _ hstep ih =>
      exact ⟨hstep.evolves.consistent hwell ih.1, hstep.explained hwell ih.1 ih.2⟩
  obtain ⟨hconsistent, hexplained⟩ := hinvariant
  obtain rfl := hconsistent.automaton_eq
  have hexact := hconsistent.states
  refine ⟨rfl, ?cells, ?splits, ?rebuilt⟩
  case cells =>
    intro location hlocation
    obtain ⟨precision, hprecision⟩ := hexplained.precise location hlocation
    obtain ⟨allowed, hallowed⟩ := hcells.computed location hlocation
    refine ⟨precision, allowed, by rw [PrecisionTable.precision, hprecision], hallowed, ?_⟩
    have hdenotes := (Automaton.invariantZone_yields tolerant_true hwell hlocation).result hallowed
    refine (cells_yields tolerant_isOverflow hdenotes ?_).mono ?_
    · exact (hexplained.cellsTolerated _).atoms location precision hprecision
    · rintro _ ⟨partition, rfl, hby⟩ cell hcell
      exact hexplained.existsUnique_state hexact hprecision hby hcell
  case splits =>
    intro path interpolant after first hsplit
    exact (explained_of_splitAlong hwell hconsistent hexplained hsplit).2
  case rebuilt =>
    refine (build_cells_yields tolerant_isOverflow hwell (hexplained.cellsTolerated _)
      (edgeChecked_of_build hwell hbuild)).mono ?_
    rintro rebuilt ⟨fresh, gained, hfresh, hrebuilt⟩ location
    refine ⟨?_, fun fine hfine ↦ ?_⟩
    · have htiles := (hrebuilt.statesExact hfresh.statesExact).tiles location
      rwa [hrebuilt.automaton_eq, hfresh.automaton_eq] at htiles
    · obtain ⟨hmem, rfl⟩ := mem_statesAt_iff.mp hfine
      rw [hrebuilt.states_eq] at hmem
      obtain ⟨precision, partition, hprecision, hzones, hby⟩ :=
        hfresh.cells fine.location (hfresh.elsewhere fine hmem)
      exact hexplained.existsUnique_state hexact hprecision hby (hzones ▸ mem_zonesAt hmem)

/-- After a search, cutting zero off the closed state of the urgent turnstile records an atom at its
location. The atom cuts two cells out of everything, one for each of the two states there, and a
graph built anew has the same three states. -/
theorem partitionExplained_turnstile : ∃ later precision cells rebuilt,
    Relation.ReflTransGen Develops turnstileGraph later ∧ later.states.length = 3 ∧
    later.precisions.precision ⟨0⟩ = .ok precision ∧
    later.automaton.invariantZone ⟨0⟩ = .ok (.top 1) ∧
    precision.cells (.top 1) = .ok cells ∧ cells.length = 2 ∧
    (∀ cell ∈ cells, ∃! state, state ∈ later.statesAt ⟨0⟩ ∧
      ∀ valuation ∈ cell, valuation ∈ state.zone) ∧
    build later.automaton later.precisions = .ok rebuilt ∧ rebuilt.states.length = 3 ∧
    (∀ location, ∀ fine ∈ rebuilt.statesAt location, ∃! state, state ∈ later.statesAt location ∧
      ∀ valuation ∈ fine.zone, valuation ∈ state.zone) ∧
    later.PartitionExplained := by
  have hread : (searchedTurnstile.splitAlong [⟨0⟩, ⟨1⟩] (.binary 0 (.reach (Zone.zero 1)))).map
      (fun refined ↦ (refined.1.states.length, refined.1.precisions.precision ⟨0⟩,
        (build refined.1.automaton refined.1.precisions).map (·.states.length))) =
      .ok (3, .ok ⟨[.compare ⟨1, Nat.one_pos⟩ none .atMost 0]⟩, .ok 3) := by
    decide +kernel
  obtain ⟨⟨later, first⟩, hsplit, hvalues⟩ := exists_ok_of_map hread
  obtain ⟨hstates, hprecision, hcount⟩ : _ ∧ _ ∧ _ := by simpa only [Prod.mk.injEq] using hvalues
  obtain ⟨rebuilt, hrebuilt, hfresh⟩ := exists_ok_of_map hcount
  have hcells : ((⟨[.compare ⟨1, Nat.one_pos⟩ none .atMost 0]⟩ : Precision).cells (.top 1)).map
      (·.length) = .ok 2 := by decide +kernel
  obtain ⟨cells, hcut, hlength⟩ := exists_ok_of_map hcells
  have hdevelops : Relation.ReflTransGen Develops turnstileGraph later :=
    .tail (.single (.search findPath_turnstile)) (.refine hsplit)
  obtain ⟨hautomaton, hexplained⟩ := partitionExplained_of_develops
    (AutomatonDraft.build_turnstile true) build_turnstileGraph hdevelops
  have hallowed : later.automaton.invariantZone ⟨0⟩ = .ok (.top 1) := by
    rw [hautomaton]
    decide +kernel
  obtain ⟨precision, allowed, hfound, hzone, hyields⟩ := hexplained.cells ⟨0⟩ (by
    rw [hautomaton]
    decide)
  obtain rfl := Except.ok.inj (hprecision.symm.trans hfound)
  obtain rfl := Except.ok.inj (hallowed.symm.trans hzone)
  exact ⟨later, _, cells, rebuilt, hdevelops, hstates, hprecision, hallowed, hcut, hlength,
    hyields.result hcut, hrebuilt, hfresh,
    fun location ↦ (hexplained.rebuilt.result hrebuilt location).2, hexplained⟩

/-! ### Building anew -/

open AutomatonDraft

/-- A bridge that only leads to where the strands of the ring are obeyed. -/
def ringMove : Move :=
  Automaton.bridgeMove [] [] (strands.map fun link ↦ .guard (.farBelow link))

/-- One clasp divides the end of the bridge, and then the other one divides the part where the first
is not obeyed. Building anew overflows, since the recorded atoms also divide the other part, and so
it has to be told whether the bridge leads to where all links are obeyed. -/
theorem ring_rebuild_overflows : ∃ start later,
    (Automaton.bridge ["a", "b", "c", "d"] ringMove).build =
      .ok (Automaton.bridgeAutomaton ["a", "b", "c", "d"] ringMove) ∧
    build (Automaton.bridgeAutomaton ["a", "b", "c", "d"] ringMove)
      ⟨[(⟨1⟩, ⟨[.farBelow (ringLink 0)]⟩)], some .empty⟩ = .ok start ∧
    start.splitAlong [⟨0⟩, ⟨2⟩] (.binary 1 (.reach (.linked [] [ringLink 2]))) =
      .ok (later, 1) ∧
    Relation.ReflTransGen Develops start later ∧
    build later.automaton later.precisions =
      .error (.boundOverflow (.atMost (-2 ^ 63)) (.atMost (-2 ^ 61))) := by
  have hread : (build (Automaton.bridgeAutomaton ["a", "b", "c", "d"] ringMove)
      ⟨[(⟨1⟩, ⟨[.farBelow (ringLink 0)]⟩)], some .empty⟩).map (fun start ↦
        (start.splitAlong [⟨0⟩, ⟨2⟩] (.binary 1 (.reach (.linked [] [ringLink 2])))).map
          fun refined ↦ (refined.2, build refined.1.automaton refined.1.precisions)) =
      .ok (.ok (1, .error (.boundOverflow (.atMost (-2 ^ 63)) (.atMost (-2 ^ 61))))) := by
    decide +kernel
  obtain ⟨start, hstart, hsplits⟩ := exists_ok_of_map hread
  obtain ⟨⟨later, first⟩, hsplit, hvalues⟩ := exists_ok_of_map hsplits
  obtain ⟨rfl, hrebuild⟩ : _ ∧ _ := by simpa only [Prod.mk.injEq] using hvalues
  exact ⟨start, later, by decide +kernel, hstart, hsplit, .single (.refine hsplit), hrebuild⟩

end TimedSafety.AbstractGraph
