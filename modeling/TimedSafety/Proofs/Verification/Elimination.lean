import TimedSafety.Proofs.Graph.Elimination
import TimedSafety.Proofs.Verification.Resumption

/-!
A refinement by forward zones eliminates the path it was made for. The zones at the positions of its
formulas are cut out of the states of the path, and the state after the last zone is not touched
(`RefinedBy.cutsForward`). So the refined graph does not follow the path beyond the position where
its replay failed (`RefinedBy.eliminates`). Every graph in a run came from the one that was built
(`evolves_of_verify`), and so this holds in every iteration. Nothing is asked of the resets of the
automaton.
-/

set_option autoImplicit false

namespace TimedSafety

namespace AbstractGraph

variable {graph searched refined : AbstractGraph} {path : List StateId} {trace : Trace}

theorem RefinedBy.evolves {kind : InterpolantKind} {direction : Direction}
    (hrefined : graph.RefinedBy kind direction path trace refined) :
    Relation.ReflTransGen Evolves graph refined := by
  obtain ⟨interpolant, split, first, -, hsplit, -, rfl⟩ := hrefined
  exact .tail (.single (.refine hsplit)) (.mark split path false first)

/-- A refinement forwards cuts out the last zone, and by a sequence all zones. -/
theorem RefinedBy.cutsForward {kind : InterpolantKind} (hwell : graph.automaton.WellFormed)
    (hconsistent : graph.Consistent graph.automaton) (hsimple : path.Nodup)
    (hpresent : ∀ id ∈ path, graph.hasState id = true)
    (hrefined : graph.RefinedBy kind .forward path trace refined) :
    0 < trace.length ∧ trace.length ≤ path.length ∧ ∃ zones,
      graph.reachAlong path = .ok zones ∧ zones.length = trace.length ∧
        graph.CutsForward path zones
          (fun position ↦ position = trace.length - 1 ∨ kind = .sequence) refined := by
  obtain ⟨interpolant, split, first, hinterpolate, hsplit, -, hrefined⟩ := hrefined
  obtain ⟨hpos, hfits, zones, hreach, hlength, hcovers⟩ :=
    (graph.interpolate_covers kind .forward path trace).result hinterpolate
  obtain ⟨progress, rfl, htracks, hafter, hcarved⟩ :=
    carvedAlong_of_splitAlong hwell hconsistent hsimple hpresent hsplit
  have halike : progress.graph.Alike refined := by
    rw [hrefined]
    exact (alike_setHighlights progress.graph path false).remember _ first
  refine ⟨hpos, hfits, zones, hreach, hlength, ?consistent, ?carved, ?kept⟩
  case consistent =>
    refine hafter.alike halike ?_
    rw [hrefined]
    exact setHighlights_lastPath progress.graph path false ▸ hafter.simple
  case carved =>
    intro index zone hcovered hzone old hold hid
    have hformula : ∃ formula, (index, formula) ∈ interpolant.formulas := by
      rcases hcovered with rfl | hsequence
      · exact hcovers.last
      · exact hcovers.all hsequence index (hlength ▸ (List.getElem?_eq_some_iff.mp hzone).1)
    obtain ⟨formula, hmem⟩ := hformula
    obtain ⟨found, hfound, rfl⟩ := (hcovers.formula _ hmem).2 rfl
    obtain rfl : zone = found := Option.some.inj (hzone.symm.trans hfound)
    exact (hcarved _ hmem old hold hid).alike halike
  case kept =>
    intro old hold hid
    have hunsplit : old.id ∉ progress.split := by
      refine htracks.not_mem_split_of_new hsimple (fun before hbefore ↦ ?_) hid
      have hbelow := (hcovers.formula before hbefore).1
      omega
    exact halike.symm.exists_mem (htracks.kept old hold hunsplit)

/-- At any time after a graph was built, a refinement by forward zones eliminates a path that was
found and judged infeasible. -/
theorem RefinedBy.eliminates {automaton : Automaton} {precisions : PrecisionTable Precision}
    {start : AbstractGraph} (hwell : automaton.WellFormed)
    (hbuild : build automaton precisions = .ok start)
    (hevolves : Relation.ReflTransGen Evolves start graph)
    (hsearch : graph.findPath = .ok (searched, some path))
    (hreplay : searched.replay path = .ok (.infeasible trace)) {kind : InterpolantKind}
    (hrefined : searched.RefinedBy kind .forward path trace refined) :
    ∃ zones last, searched.ForwardZones path zones ∧ zones.length = trace.length ∧
      zones[trace.length - 1]? = some last ∧
        searched.Eliminates kind path (trace.length - 1) last refined := by
  have hgraph := consistent_of_evolves hwell hbuild hevolves
  have hfound := found_of_findPath hgraph.states.distinct hsearch
  have hsearched : Relation.ReflTransGen Evolves start searched := hevolves.tail (.search hsearch)
  have hconsistent := consistent_of_evolves hwell hbuild hsearched
  have hcharted := charted_of_evolves hbuild hsearched
  obtain rfl := hconsistent.automaton_eq
  have hpresent : ∀ id ∈ path, searched.hasState id = true := by
    intro id hid
    rw [hasState_iff, (alike_of_findPath hsearch).ids_eq]
    exact hasState_iff.mp (hfound.present id hid)
  obtain ⟨hpos, hfits, zones, hreach, hlength, hcuts⟩ :=
    hrefined.cutsForward hwell hconsistent (hfound.simple hgraph.simple) hpresent
  have hforward := forwardZones_of_reachAlong hreach
  have hlast := List.getElem?_eq_getElem (show trace.length - 1 < zones.length by omega)
  refine ⟨zones, _, hforward, hlength, hlast, hcuts.eliminates hforward (by omega)
    hconsistent.states hwell hcharted (by omega) hlast ?_⟩
  intro hfull id state hid hstate
  obtain ⟨same, hsame, herror⟩ := errorWitness_of_replay hreplay hreach hfull hid hlast
  obtain rfl : state = same := Option.some.inj (hstate.symm.trans hsame)
  exact herror

end AbstractGraph

namespace Verification

open AbstractGraph

variable {verification : Verification}

/-- The graph with which a run goes on came from the one that was built. -/
theorem evolves_of_verify {kind : InterpolantKind} {direction : Direction}
    (hinterpolate : verification.plan.InterpolatesExactly kind direction)
    (hsplit : verification.plan.SplitsExactly) {automaton : Automaton}
    {precisions : PrecisionTable Precision} {fuel : Nat} {journal after : Journal}
    {graph : AbstractGraph} {iterations : Nat}
    (hrun : (verification.verify automaton precisions fuel).run.run journal =
      (.ok (.underway graph iterations), after)) :
    ∃ start, build automaton precisions = .ok start ∧
      Relation.ReflTransGen Evolves start graph := by
  refine verify_induction (fun graph ↦ ∃ start, build automaton precisions = .ok start ∧
    Relation.ReflTransGen Evolves start graph) (fun start hbuild ↦ ⟨start, hbuild, .refl⟩) ?_ hrun
  rintro graph refined ⟨start, hbuild, hevolves⟩
    ⟨searched, path, trace, call, before, final, hsearch, hrefine⟩
  have hrefined := (Plan.refinedBy_of_refine hinterpolate hsplit _ _ _ _ _ _).result hrefine _ rfl
  exact ⟨start, hbuild, (hevolves.tail (.search hsearch)).trans hrefined.evolves⟩

/-- In every run, whatever its interpolants are, a refinement by forward zones eliminates the path
that was found and judged infeasible. Inside the state of the path where the trace ends, just one
state overlaps the last forward zone. It is that zone, and from it the path does not go on. By a
sequence, no states that follow the path from an initial one on get past this position. -/
theorem refine_eliminates {draft : AutomatonDraft} {automaton : Automaton}
    (hdraft : draft.build = .ok automaton) {used : InterpolantKind} {direction : Direction}
    (hinterpolate : verification.plan.InterpolatesExactly used direction)
    (hsplit : verification.plan.SplitsExactly) {precisions : PrecisionTable Precision} {fuel : Nat}
    {journal after : Journal} {graph : AbstractGraph} {iterations : Nat}
    (hrun : (verification.verify automaton precisions fuel).run.run journal =
      (.ok (.underway graph iterations), after)) {searched : AbstractGraph} {path : List StateId}
    (hsearch : graph.findPath = .ok (searched, some path)) {trace : Trace}
    (hreplay : searched.replay path = .ok (.infeasible trace)) {kind : InterpolantKind}
    {style : Option DrawingStyle} {call : Nat} {before final : Journal} {refined : AbstractGraph}
    (hrefine : ((Plan.exact kind .forward).refine style call searched path trace).run.run before =
      (.ok (some refined), final)) :
    ∃ zones last, searched.ForwardZones path zones ∧ zones.length = trace.length ∧
      zones[trace.length - 1]? = some last ∧
        searched.Eliminates kind path (trace.length - 1) last refined := by
  obtain ⟨start, hbuild, hevolves⟩ := evolves_of_verify hinterpolate hsplit hrun
  have hrefined : searched.RefinedBy kind .forward path trace refined :=
    (Plan.refinedBy_of_refine (fun _ _ _ _ ↦ rfl) (fun _ _ _ _ ↦ rfl) _ _ _ _ _ _).result hrefine
      refined rfl
  exact hrefined.eliminates (AutomatonDraft.wellFormed_of_build hdraft) hbuild hevolves hsearch
    hreplay

/-- The path through a relay with two entries is judged infeasible, since the smaller entry resets
the clock. After a refinement by a sequence, no states follow it beyond its second position. -/
theorem refine_eliminates_relay : ∃ trace refined after zones last,
    (searchedRelay parallelEntries).replay relayPath = .ok (.infeasible trace) ∧
    ((Plan.exact .sequence .forward).refine none 1 (searchedRelay parallelEntries) relayPath
      trace).run.run (.start false) = (.ok (some refined), after) ∧
    (searchedRelay parallelEntries).ForwardZones relayPath zones ∧ zones.length = 2 ∧
    zones[1]? = some last ∧
    (searchedRelay parallelEntries).Eliminates .sequence relayPath 1 last refined := by
  have hdraft : (relay parallelEntries).build = .ok (relayAutomaton parallelEntries) := by
    decide +kernel
  have hunderway := verify_parallelRelay ⟨.exact .sequence .forward, none, none⟩ (.start false)
  have hreplay : (searchedRelay parallelEntries).replay relayPath =
      .ok (.infeasible ⟨[⟨⟨0⟩, ⟨[0]⟩⟩, ⟨⟨1⟩, ⟨[0]⟩⟩]⟩) := by decide +kernel
  have hread : (((Plan.exact .sequence .forward).refine none 1 (searchedRelay parallelEntries)
      relayPath ⟨[⟨⟨0⟩, ⟨[0]⟩⟩, ⟨⟨1⟩, ⟨[0]⟩⟩]⟩).run.run (.start false)).1.map
        (·.map fun _ ↦ ()) = .ok (some ()) := by decide +kernel
  obtain ⟨refined, after, hresult, -⟩ := exists_some_of_map hread
  obtain ⟨zones, last, heliminates⟩ := refine_eliminates hdraft (fun _ _ _ _ ↦ rfl)
    (fun _ _ _ _ ↦ rfl) hunderway findPath_parallelRelay hreplay hresult
  exact ⟨_, refined, after, zones, last, hreplay, hresult, heliminates⟩

end Verification

end TimedSafety
