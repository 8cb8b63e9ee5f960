import TimedSafety.Proofs.Graph.Steps
import TimedSafety.Proofs.Precision
import TimedSafety.Proofs.Zone.Atoms

/-!
Refinement along a path. At each position the state of the path is left alone, or replaced by the
cells that the atoms of the formula cut out of it, at least two of them. It is left alone only if it
was split before, is no longer there, or all atoms of the formula are uniform on it.
-/

set_option autoImplicit false

namespace TimedSafety

namespace AbstractGraph

variable {may : Fault → Prop}

/-! ### One position -/

/-- A state is replaced by at least two pieces, and no precision gets lost. -/
structure Cuts (graph after : AbstractGraph) (id : StateId) : Prop where
  exact : after.Exact
  division : ∃ old pieces precisions, old.id = id ∧ 2 ≤ pieces.length ∧
    ({ graph with precisions } : AbstractGraph).Divides after old pieces
  covered : ∀ location, (graph.precisions.precision? location).isSome →
    (after.precisions.precision? location).isSome

/-- All atoms of a formula are uniform on a zone. -/
def Formula.UniformOn (formula : Formula) (zone : Zone) : Prop :=
  ∃ atoms, formula.zone.atoms = .ok atoms ∧ Zone.UniformOn atoms [zone]

/-- Why a state is left alone. -/
def Spared (progress : SplitProgress) (id : StateId) (formula : Formula) : Prop :=
  id ∈ progress.split ∨ progress.graph.state? id = none ∨
    ∃ state, progress.graph.state? id = some state ∧ Formula.UniformOn formula state.zone

/-- A tiling with a single piece is uniform where that piece is. -/
theorem uniformOn_of_tiles {zone : Zone} {clocks : Nat} {pieces : List Zone}
    {atoms : List Constraint} (htiles : Tiles pieces clocks (· ∈ zone))
    (huniform : Zone.UniformOn atoms pieces) (hfew : pieces.length < 2) :
    Zone.UniformOn atoms [zone] := by
  intro atom hatom hisAtom other hother
  obtain rfl := List.mem_singleton.mp hother
  match pieces, htiles, huniform, hfew with
  | [], htiles, _, _ =>
    refine Or.inl fun valuation hmem ↦ ?_
    obtain ⟨piece, hpiece, -⟩ := (htiles.cover valuation).mp hmem
    exact absurd hpiece List.not_mem_nil
  | [piece], htiles, huniform, _ =>
    refine (huniform atom hatom hisAtom piece List.mem_cons_self).mono fun valuation hmem ↦ ?_
    simpa using (htiles.cover valuation).mp hmem

theorem Exact.withPrecision {graph : AbstractGraph} (hexact : graph.Exact) (location : Location)
    (precision : Precision) : (graph.withPrecision location precision).Exact :=
  ⟨⟨hexact.distinct, hexact.fresh, hexact.tiles, hexact.flag⟩, hexact.transition_iff⟩

/-- In an exact graph, a state that is left alone is spared. -/
theorem LeftAlone.spared {progress : SplitProgress} {id : StateId} {formula : Formula}
    (hleft : LeftAlone progress id formula) (hexact : progress.graph.Exact) :
    Spared progress id formula := by
  rcases hleft with hsplit | hnone | ⟨state, hstate, hbottom | ⟨atoms, partition, hlisted,
    hpartition, hfew⟩⟩
  · exact Or.inl hsplit
  · exact Or.inr (Or.inl hnone)
  · rw [hexact.isBottom_eq (mem_of_state? hstate)] at hbottom
    contradiction
  · obtain ⟨htiles, huniform⟩ := (Zone.partitionBy_yields tolerant_true
      (hexact.zoneSound (mem_of_state? hstate)) fun atom _ ↦ atom.tolerated_true _).result
        hpartition
    exact Or.inr (Or.inr ⟨state, hstate, atoms, hlisted,
      uniformOn_of_tiles htiles huniform hfew⟩)

/-- In an exact graph, splitting a state into several cells cuts it. -/
theorem Exact.cuts {graph after : AbstractGraph} (hexact : graph.Exact)
    (htolerated : graph.automaton.Tolerated fun _ ↦ True) {id : StateId} {old : AbstractState}
    (hold : graph.state? id = some old) {atoms : List Constraint} {partition : Partition}
    (hpartition : old.zone.partitionBy atoms = .ok partition)
    (hseveral : 2 ≤ partition.pieces.length) {precision : Precision} {pieces : List AbstractState}
    (hsplit : (graph.withPrecision old.location precision).splitState id partition.pieces =
      .ok (after, pieces)) : graph.Cuts after id := by
  obtain ⟨htiles, -⟩ := (Zone.partitionBy_yields tolerant_true
    (hexact.zoneSound (mem_of_state? hold)) fun atom _ ↦ atom.tolerated_true _).result hpartition
  obtain ⟨hafter, hdivides, hzones⟩ := (splitState_yields tolerant_true
    (hexact.withPrecision old.location precision) htolerated hold htiles).result hsplit
  have hpieces : 2 ≤ pieces.length := by
    rwa [← List.length_map (·.zone), hzones]
  refine ⟨hafter, ⟨old, pieces, _, id_of_state? hold, hpieces, hdivides⟩,
    fun location hlocation ↦ ?_⟩
  rw [hdivides.precisions_eq]
  exact PrecisionTable.precision?_update_isSome _ _ _ _ hlocation

/-- The computations at a position fail only in ways that may be. -/
theorem Exact.splitAt_yields (hmay : Tolerant may) {progress : SplitProgress}
    (htolerated : progress.graph.automaton.Tolerated may) (hexact : progress.graph.Exact)
    {path : List StateId} {position : Nat × Formula}
    (hposition : path[position.1]? = none → may .indexOutOfBounds)
    (hcovered : ∀ location ∈ progress.graph.automaton.locations,
      progress.graph.precisions.precision? location = none → may (.noPrecision location))
    (hatoms : Yields may position.2.zone.atoms fun atoms ↦
      ∀ atom ∈ atoms, atom.Tolerated may progress.graph.automaton.clocks) :
    Yields may (splitAt path progress position) (SplitStep path progress position) := by
  refine splitAt_steps hposition
    (fun state hstate ↦ hcovered state.location (hexact.location_mem hstate)) ?_
  intro id old hold
  refine hatoms.mono fun atoms htoleratedAtoms ↦ ?_
  refine (Zone.partitionBy_yields hmay (hexact.zoneSound (mem_of_state? hold))
    htoleratedAtoms).mono fun partition hpartition precision ↦ ?_
  exact (splitState_yields hmay (hexact.withPrecision _ _) htolerated hold hpartition.1).mono
    fun _ _ ↦ trivial

/-! ### Numbers over time -/

/-- The later graph has all states of the earlier numbers from the earlier one: a number that is in
use keeps its state, and one that is not is never used again. -/
structure Later (earlier later : AbstractGraph) : Prop where
  automaton_eq : later.automaton = earlier.automaton
  le_nextId : earlier.nextId.number ≤ later.nextId.number
  kept : ∀ state ∈ later.states, state.id.number < earlier.nextId.number →
    ∃ former ∈ earlier.states, former.id = state.id ∧ former.location = state.location ∧
      former.zone = state.zone

namespace Later

variable {earlier later final : AbstractGraph}

theorem refl (graph : AbstractGraph) : graph.Later graph :=
  ⟨rfl, le_rfl, fun state hstate _ ↦ ⟨state, hstate, rfl, rfl, rfl⟩⟩

theorem trans (hfirst : earlier.Later later) (hsecond : later.Later final) :
    earlier.Later final := by
  refine ⟨hsecond.automaton_eq.trans hfirst.automaton_eq,
    hfirst.le_nextId.trans hsecond.le_nextId, fun state hstate hid ↦ ?_⟩
  obtain ⟨former, hformer, hformerId, hformerLocation, hformerZone⟩ :=
    hsecond.kept state hstate (hid.trans_le hfirst.le_nextId)
  obtain ⟨first, hfirstMem, hfirstId, hfirstLocation, hfirstZone⟩ :=
    hfirst.kept former hformer (by rwa [hformerId])
  exact ⟨first, hfirstMem, hfirstId.trans hformerId, hfirstLocation.trans hformerLocation,
    hfirstZone.trans hformerZone⟩

end Later

theorem Divides.later {graph after : AbstractGraph} {old : AbstractState}
    {pieces : List AbstractState} (hdivides : graph.Divides after old pieces) :
    graph.Later after := by
  refine ⟨hdivides.automaton_eq, hdivides.le_nextId, fun state hstate hid ↦ ?_⟩
  rw [hdivides.states_eq] at hstate
  rcases List.mem_append.mp hstate with hkept | hpiece
  · exact ⟨state, (List.mem_filter.mp hkept).1, rfl, rfl, rfl⟩
  · exact absurd hid (not_lt.mpr (hdivides.le_id state hpiece))

theorem Cuts.later {graph after : AbstractGraph} {id : StateId} (hcuts : graph.Cuts after id) :
    graph.Later after := by
  obtain ⟨old, pieces, precisions, -, -, hdivides⟩ := hcuts.division
  have hlater := hdivides.later
  exact ⟨hlater.automaton_eq, hlater.le_nextId, hlater.kept⟩

/-- Cutting a state leaves more states than before. -/
theorem Cuts.length_lt {graph after : AbstractGraph} {id : StateId} (hcuts : graph.Cuts after id)
    (hexact : graph.StatesExact) : graph.states.length < after.states.length := by
  obtain ⟨old, pieces, precisions, -, hseveral, hdivides⟩ := hcuts.division
  obtain ⟨front, back, hstates, hwithout⟩ := hexact.exists_around
    ((state?_eq_some_iff hexact.distinct).mpr ⟨hdivides.mem_old, rfl⟩)
  have hafter : after.states = front ++ back ++ pieces := by
    rw [hdivides.states_eq, ← hwithout]
    rfl
  rw [hstates, hafter]
  simp only [List.length_append, List.length_cons]
  omega

/-! ### A whole path -/

/-- A former state is gone, and at least two states with new numbers tile its zone. -/
structure Replaced (start after : AbstractGraph) (old : AbstractState) : Prop where
  gone : ∀ state ∈ after.states, state.id ≠ old.id
  pieces : ∃ pieces : List AbstractState, 2 ≤ pieces.length ∧
    Tiles (pieces.map (·.zone)) start.automaton.clocks (· ∈ old.zone) ∧
    ∀ piece ∈ pieces, piece ∈ after.states ∧ piece.location = old.location ∧
      start.nextId.number ≤ piece.id.number

/-- What holds while states of an exact graph are split, besides what holds of any graph. -/
structure Advances (start : AbstractGraph) (path : List StateId) (done : List (Nat × Formula))
    (progress : SplitProgress) : Prop extends Tracks start path done progress where
  exact : progress.graph.Exact
  later : start.Later progress.graph
  covered : ∀ location, (start.precisions.precision? location).isSome →
    (progress.graph.precisions.precision? location).isSome
  grown : start.states.length + progress.split.length ≤ progress.graph.states.length
  replaced : (∀ id ∈ path, id.number < start.nextId.number) → ∀ id ∈ progress.split,
    id.number < start.nextId.number ∧
      ∀ old ∈ start.states, old.id = id → start.Replaced progress.graph old

theorem Advances.start {graph : AbstractGraph} (hexact : graph.Exact) (path : List StateId) :
    graph.Advances path [] ⟨graph, [], path.length⟩ :=
  ⟨.start ⟨hexact.distinct, hexact.fresh⟩ path, hexact, .refl graph, fun _ hcovered ↦ hcovered,
    le_rfl, by simp⟩

/-- Pieces with new numbers outlive a cut of a state with an old one. -/
theorem Replaced.cut {start graph after : AbstractGraph} {id : StateId} {old : AbstractState}
    (hreplaced : start.Replaced graph old) (hcuts : graph.Cuts after id)
    (hstart : start.StatesExact) (hold : old ∈ start.states)
    (hnext : start.nextId.number ≤ graph.nextId.number)
    (hid : id.number < start.nextId.number) : start.Replaced after old := by
  obtain ⟨cut, added, precisions, rfl, -, hdivides⟩ := hcuts.division
  refine ⟨fun state hstate ↦ ?_, ?_⟩
  · rw [hdivides.states_eq] at hstate
    rcases List.mem_append.mp hstate with hkept | hnew
    · exact hreplaced.gone state (List.mem_filter.mp hkept).1
    · intro hsame
      have habove := hnext.trans (hdivides.le_id state hnew)
      rw [hsame] at habove
      exact absurd (hstart.fresh old hold) (not_lt.mpr habove)
  · obtain ⟨pieces, hseveral, htiles, hpieces⟩ := hreplaced.pieces
    refine ⟨pieces, hseveral, htiles, fun piece hpiece ↦ ?_⟩
    obtain ⟨hmem, hlocation, habove⟩ := hpieces piece hpiece
    refine ⟨?_, hlocation, habove⟩
    rw [hdivides.states_eq]
    refine List.mem_append_left _ (List.mem_filter.mpr ⟨hmem, ?_⟩)
    have hne : piece.id ≠ cut.id := by
      intro hsame
      rw [hsame] at habove
      exact absurd hid (not_lt.mpr habove)
    simpa using hne

theorem Cuts.replaced {start graph after : AbstractGraph} {id : StateId} {old : AbstractState}
    (hcuts : graph.Cuts after id) (hexact : graph.StatesExact) (hlater : start.Later graph)
    (hold : old ∈ graph.states) (hid : old.id = id) (hfresh : id.number < start.nextId.number) :
    start.Replaced after old := by
  obtain ⟨cut, added, precisions, rfl, hseveral, hdivides⟩ := hcuts.division
  obtain rfl := hexact.eq_of_id hold hdivides.mem_old hid
  refine ⟨fun state hstate ↦ ?_, added, hseveral, hlater.automaton_eq ▸ hdivides.tiles,
    fun piece hpiece ↦ ⟨?_, hdivides.location_eq piece hpiece,
      hlater.le_nextId.trans (hdivides.le_id piece hpiece)⟩⟩
  · rw [hdivides.states_eq] at hstate
    rcases List.mem_append.mp hstate with hkept | hnew
    · simpa using (List.mem_filter.mp hkept).2
    · intro hsame
      have habove := hlater.le_nextId.trans (hdivides.le_id state hnew)
      rw [hsame] at habove
      exact absurd hfresh (not_lt.mpr habove)
  · rw [hdivides.states_eq]
    exact List.mem_append_right _ hpiece

/-- One more position keeps what holds while states are split. -/
theorem Advances.step {start : AbstractGraph} {path : List StateId} {done : List (Nat × Formula)}
    {progress next : SplitProgress} {position : Nat × Formula}
    (hadvances : start.Advances path done progress) (hstart : start.StatesExact)
    (htolerated : progress.graph.automaton.Tolerated fun _ ↦ True)
    (hstep : SplitStep path progress position next) :
    start.Advances path (done ++ [position]) next := by
  have htracks := hadvances.toTracks.step hstep
  cases hstep with
  | spare =>
    exact ⟨htracks, hadvances.exact, hadvances.later, hadvances.covered, hadvances.grown,
      hadvances.replaced⟩
  | @cut id _ _ _ _ after _ hid _ hold _ hpartition hseveral _ hsplit =>
    have hcuts : progress.graph.Cuts after id :=
      hadvances.exact.cuts htolerated hold hpartition hseveral hsplit
    have hpath := List.mem_of_getElem? hid
    refine ⟨htracks, hcuts.exact, hadvances.later.trans hcuts.later, fun location hlocation ↦
      hcuts.covered location (hadvances.covered location hlocation), ?_, fun hfresh ↦ ?_⟩
    · have hlength := hcuts.length_lt hadvances.exact.toStatesExact
      have hgrown := hadvances.grown
      change start.states.length + (progress.split.length + 1) ≤ after.states.length
      omega
    · refine List.forall_mem_cons.mpr ⟨⟨hfresh id hpath, fun old hold hsame ↦ ?_⟩,
        fun other hother ↦ ?_⟩
      · refine hcuts.replaced hadvances.exact.toStatesExact hadvances.later
          (hadvances.kept old hold ?_) hsame (hfresh id hpath)
        rwa [hsame]
      · obtain ⟨hotherFresh, hreplaced⟩ := hadvances.replaced hfresh other hother
        exact ⟨hotherFresh, fun old hold hsame ↦ (hreplaced old hold hsame).cut hcuts hstart hold
          hadvances.later.le_nextId (hfresh id hpath)⟩

/-- At every position done, the state of the path was split, or the formula is uniform on it. -/
def Settled (start : AbstractGraph) (path : List StateId) (done : List (Nat × Formula))
    (split : List StateId) : Prop :=
  ∀ position ∈ done, ∃ id, path[position.1]? = some id ∧
    ∀ state ∈ start.states, state.id = id →
      id ∈ split ∨ Formula.UniformOn position.2 state.zone

theorem Settled.mono {start : AbstractGraph} {path : List StateId} {done : List (Nat × Formula)}
    {split larger : List StateId} (hsettled : start.Settled path done split)
    (hsubset : split ⊆ larger) : start.Settled path done larger := by
  intro position hposition
  obtain ⟨id, hid, hstates⟩ := hsettled position hposition
  exact ⟨id, hid, fun state hstate hsame ↦ (hstates state hstate hsame).imp (hsubset ·) (·)⟩

/-- A state that is spared was split before, or the formula is uniform on it. -/
theorem Advances.settled_of_spared {start : AbstractGraph} {path : List StateId}
    {done : List (Nat × Formula)} {progress : SplitProgress}
    (hadvances : start.Advances path done progress) {id : StateId} {formula : Formula}
    (hspared : Spared progress id formula) {state : AbstractState}
    (hstate : state ∈ start.states) (hsame : state.id = id) :
    id ∈ progress.split ∨ Formula.UniformOn formula state.zone := by
  by_cases hsplit : id ∈ progress.split
  · exact Or.inl hsplit
  have hfound := (state?_eq_some_iff hadvances.exact.distinct).mpr
    ⟨hadvances.kept state hstate (by rwa [hsame]), hsame⟩
  rcases hspared with hbefore | hnone | ⟨other, hother, huniform⟩
  · exact Or.inl hbefore
  · rw [hfound] at hnone
    contradiction
  · obtain rfl : state = other := Option.some.inj (hfound.symm.trans hother)
    exact Or.inr huniform

theorem Settled.step {start : AbstractGraph} {path : List StateId} {done : List (Nat × Formula)}
    {progress next : SplitProgress} {position : Nat × Formula}
    (hsettled : start.Settled path done progress.split)
    (hadvances : start.Advances path done progress)
    (hstep : SplitStep path progress position next) :
    start.Settled path (done ++ [position]) next.split := by
  cases hstep with
  | @spare id hid hleft =>
    refine List.forall_mem_append.mpr ⟨hsettled, List.forall_mem_singleton.mpr ⟨id, hid, ?_⟩⟩
    intro state hstate hsame
    exact hadvances.settled_of_spared (hleft.spared hadvances.exact) hstate hsame
  | @cut id _ _ _ _ _ _ hid =>
    refine List.forall_mem_append.mpr ⟨hsettled.mono (List.subset_cons_self _ _), ?_⟩
    exact List.forall_mem_singleton.mpr ⟨id, hid, fun _ _ _ ↦ Or.inl List.mem_cons_self⟩

/-- Splitting along a path keeps the graph exact and settles every position. -/
theorem splitAlong_yields (hmay : Tolerant may) {graph : AbstractGraph} (hexact : graph.Exact)
    (htolerated : graph.automaton.Tolerated may) {path : List StateId} {interpolant : Interpolant}
    (hpositions : ∀ position ∈ interpolant.formulas,
      path[position.1]? = none → may .indexOutOfBounds)
    (hcovered : ∀ location ∈ graph.automaton.locations,
      graph.precisions.precision? location = none → may (.noPrecision location))
    (hatoms : ∀ position ∈ interpolant.formulas, Yields may position.2.zone.atoms fun atoms ↦
      ∀ atom ∈ atoms, atom.Tolerated may graph.automaton.clocks) :
    Yields may (graph.splitAlong path interpolant) fun result ↦
      ∃ progress : SplitProgress, progress.graph = result.1 ∧
        graph.Advances path interpolant.formulas progress ∧
        graph.Settled path interpolant.formulas progress.split := by
  refine (splitAlong_keeps (fun done (progress : SplitProgress) ↦
    graph.Advances path done progress ∧ graph.Settled path done progress.split)
    ⟨.start hexact path, by simp [Settled]⟩ ?_).mono ?_
  · rintro done position rest hformulas progress ⟨hadvances, hsettled⟩
    have hposition : position ∈ interpolant.formulas := by simp [hformulas]
    have hautomaton := hadvances.later.automaton_eq
    refine (hadvances.exact.splitAt_yields hmay (by rwa [hautomaton])
      (hpositions position hposition) ?_ ?_).mono fun next hstep ↦ ?_
    · rw [hautomaton]
      intro location hlocation hnone
      refine hcovered location hlocation ?_
      by_contra hsome
      have := hadvances.covered location (Option.isSome_iff_ne_none.mpr hsome)
      simp [hnone] at this
    · rw [hautomaton]
      exact hatoms position hposition
    · refine ⟨hadvances.step hexact.toStatesExact ?_ hstep, hsettled.step hadvances hstep⟩
      rw [hautomaton]
      exact htolerated.wellFormed.tolerated_true htolerated.nonNegative
  · rintro result ⟨progress, hprogress, hgraph, -⟩
    exact ⟨progress, hgraph, hprogress⟩

end AbstractGraph

end TimedSafety
