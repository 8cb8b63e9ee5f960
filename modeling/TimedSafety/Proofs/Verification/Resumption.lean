import TimedSafety.Proofs.Graph.Interpolation
import TimedSafety.Proofs.Graph.Resumption
import TimedSafety.Proofs.Verification.Loop

/-!
What a run hands on from one iteration to the next. Between iterations no state is highlighted,
numbers are distinct, and the remembered path repeats no state (`Tidy`). This is so after building,
and every iteration keeps it (`verify_induction`). So a search highlights just the states of the
path it finds, and a refinement leaves a graph in which the search can be resumed
(`verify_resumable`). Nothing is asked of the automaton, of the precisions or of how paths are
checked.
-/

set_option autoImplicit false

namespace TimedSafety

/-! ### One refinement -/

namespace AbstractGraph

variable {graph refined : AbstractGraph} {path : List StateId} {trace : Trace}

/-- The graph that a refinement by zones makes of another one. -/
def RefinedBy (kind : InterpolantKind) (direction : Direction) (graph : AbstractGraph)
    (path : List StateId) (trace : Trace) (refined : AbstractGraph) : Prop :=
  ∃ interpolant split first, graph.interpolate kind direction path trace = .ok interpolant ∧
    graph.splitAlong path interpolant = .ok (split, first) ∧
    graph.states.length < split.states.length ∧
    refined = { split.setHighlights path false with resumeAt := first }

/-- What an iteration finds and leaves: numbers are distinct, no state is highlighted, and the
remembered path repeats none. -/
structure Tidy (graph : AbstractGraph) : Prop where
  numbered : graph.Numbered
  unmarked : graph.Unmarked
  simple : graph.lastPath.Nodup

theorem tidy_of_build {automaton : Automaton} {precisions : PrecisionTable Precision}
    (hbuild : build automaton precisions = .ok graph) : graph.Tidy := by
  obtain ⟨celled, -, hcelled, transitions, rfl, -⟩ :=
    (build_gains automaton precisions).result hbuild
  refine ⟨⟨hcelled.numbered.distinct, hcelled.numbered.fresh⟩, hcelled.unmarked, ?_⟩
  have hlast : celled.lastPath.Nodup := by
    rw [hcelled.lastPath_eq]
    exact List.nodup_nil
  exact hlast

/-- A search in a tidy graph remembers the path it finds, and highlights just its states. -/
theorem Tidy.searched {searched : AbstractGraph} (htidy : graph.Tidy)
    (hsearch : graph.findPath = .ok (searched, some path)) :
    searched.lastPath = path ∧ ∀ id, (∃ state ∈ searched.states,
      state.id = id ∧ state.highlighted = true) ↔ id ∈ path := by
  rw [eq_of_findPath hsearch]
  exact ⟨rfl, htidy.unmarked.highlighted_iff
    (found_of_findPath htidy.numbered.distinct hsearch).present⟩

/-- After a refinement by the path that was found, the graph is tidy again, and the search can be
resumed within the trace. -/
theorem Tidy.refinedBy {searched : AbstractGraph} (htidy : graph.Tidy)
    (hsearch : graph.findPath = .ok (searched, some path)) {kind : InterpolantKind}
    {direction : Direction} (hrefined : searched.RefinedBy kind direction path trace refined) :
    refined.Tidy ∧ refined.Resumable trace.length := by
  obtain ⟨hlast, hmarked⟩ := htidy.searched hsearch
  have hfound := found_of_findPath htidy.numbered.distinct hsearch
  have hsimple := hfound.simple htidy.simple
  have halike := alike_of_findPath hsearch
  obtain ⟨interpolant, split, first, hinterpolate, hsplit, hgrown, hrefined⟩ := hrefined
  obtain ⟨-, hfits, _, -, -, hcovers⟩ :=
    (searched.interpolate_covers kind direction path trace).result hinterpolate
  have hpresent : ∀ id ∈ path, searched.hasState id = true := by
    intro id hid
    rw [hasState_iff, halike.ids_eq]
    exact hasState_iff.mp (hfound.present id hid)
  have hlinked : path.IsChain searched.Linked := by
    rw [halike.linked_eq]
    exact hfound.pathTo.linked
  obtain ⟨hnumbered, hresumable⟩ := resumable_of_splitAlong (htidy.numbered.alike halike) hlast
    hsimple hpresent (hfound.pathTo.start.alike halike) hlinked
    (fun state hstate hhighlighted ↦ (hmarked state.id).mp ⟨state, hstate, rfl, hhighlighted⟩)
    (fun position hposition ↦ (hcovers.formula position hposition).1) hfits hsplit hgrown hrefined
  refine ⟨⟨hnumbered, hresumable.unmarked, ?_⟩, hresumable⟩
  obtain ⟨progress, htracks, rfl, -⟩ :=
    tracks_of_splitAlong (htidy.numbered.alike halike) hsplit
  have hkept : refined.lastPath = path := by
    rw [hrefined, ← hlast, ← htracks.lastPath_eq]
    exact setHighlights_lastPath progress.graph _ false
  rwa [hkept]

end AbstractGraph

namespace Plan

/-- The plan interpolates paths by zones, in this way. -/
def InterpolatesExactly (plan : Plan) (kind : InterpolantKind) (direction : Direction) : Prop :=
  ∀ call graph path trace, plan.interpolate call graph path trace =
    Recorded.ofExcept (graph.interpolate kind direction path trace)

/-- A refinement that gives a graph refined it by zones. -/
theorem refinedBy_of_refine {plan : Plan} {kind : InterpolantKind} {direction : Direction}
    (hinterpolate : plan.InterpolatesExactly kind direction) (hsplit : plan.SplitsExactly)
    (style : Option DrawingStyle) (call : Nat) (graph : AbstractGraph) (path : List StateId)
    (trace : Trace) (journal : Journal) :
    Delivers (fun _ ↦ True) (plan.refine style call graph path trace) journal fun result _ ↦
      ∀ refined, result = some refined → graph.RefinedBy kind direction path trace refined := by
  unfold refine
  by_cases hmisfit : trace.length = 0 ∨ path.length < trace.length
  · rw [if_pos hmisfit]
    exact Delivers.throw trivial
  rw [if_neg hmisfit, hinterpolate]
  have hphase : Delivers (fun _ ↦ True) ((Recorded.ofExcept (graph.interpolate kind direction path
      trace)).mapError VerificationError.solver) journal fun interpolant _ ↦
        graph.interpolate kind direction path trace = .ok interpolant :=
    Delivers.mapError (Delivers.ofExcept (.of_forall fun _ hresult ↦ hresult))
  refine hphase.bind fun interpolant seen hinterpolant ↦ ?_
  refine (Delivers.any fun _ ↦ trivial).bind fun _ shown _ ↦ ?_
  refine Delivers.unlessStopped (fun _ _ ↦ nofun) ?_
  rw [hsplit]
  have hcut : Delivers (fun _ ↦ True) ((Recorded.ofFault (graph.splitAlong path
      interpolant)).mapError VerificationError.solver) shown fun result _ ↦
        graph.splitAlong path interpolant = .ok result :=
    Delivers.mapError (Delivers.ofFault (.of_forall fun _ hresult ↦ hresult) fun _ _ ↦ trivial)
  refine hcut.bind ?_
  rintro ⟨split, first⟩ after hresult
  refine Delivers.unlessStopped (fun _ _ ↦ nofun) ?_
  dsimp only
  by_cases hgrown : split.states.length ≤ graph.states.length
  · rw [if_pos hgrown]
    exact Delivers.throw trivial
  rw [if_neg hgrown]
  refine (Delivers.any fun _ ↦ trivial).bind fun _ final _ ↦ Delivers.pure ?_
  rintro _ ⟨⟩
  exact ⟨interpolant, split, first, hinterpolant, hresult, not_le.mp hgrown, rfl⟩

end Plan

/-! ### A whole run -/

namespace Verification

variable {verification : Verification}

/-- The refined graph of the iteration that begins with a graph. -/
def Iterated (verification : Verification) (graph refined : AbstractGraph) : Prop :=
  ∃ searched path trace call before after, graph.findPath = .ok (searched, some path) ∧
    (verification.plan.refine verification.style call searched path trace).run.run before =
      (.ok (some refined), after)

theorem iterated_of_iterate (graph : AbstractGraph) (iterations : Nat) (journal : Journal) :
    Delivers (fun _ ↦ True) (verification.iterate graph iterations) journal fun standing _ ↦
      ∀ refined next, standing = .underway refined next → verification.Iterated graph refined := by
  refine Delivers.unlessStopped (fun _ ↦ nofun) ?_
  cases verification.exhausted iterations with
  | some limit => exact Delivers.throw trivial
  | none =>
    refine Delivers.ofFault_bind (Yields.of_forall fun result hresult ↦ hresult)
      (fun _ _ ↦ trivial) ?_
    rintro ⟨searched, found⟩ hsearch
    cases found with
    | none => exact Delivers.pure nofun
    | some path =>
      refine (Delivers.any fun _ ↦ trivial).bind fun verdict checked _ ↦ ?_
      cases verdict with
      | feasible trace => exact Delivers.pure nofun
      | infeasible trace =>
        refine (Delivers.runs _ checked).bind fun result after hresult ↦ ?_
        cases result with
        | none => exact Delivers.pure nofun
        | some refined =>
          refine Delivers.pure ?_
          rintro _ _ ⟨⟩
          exact ⟨searched, path, trace, _, checked, after, hsearch, hresult⟩

/-- What every iteration keeps holds of the graph with which a run goes on. -/
theorem run_induction (invariant : AbstractGraph → Prop)
    (hstep : ∀ graph refined, invariant graph → verification.Iterated graph refined →
      invariant refined) (fuel : Nat) {graph : AbstractGraph} (hgraph : invariant graph)
    (iterations : Nat) (journal : Journal) :
    Delivers (fun _ ↦ True) (verification.run fuel graph iterations) journal fun standing _ ↦
      ∀ final count, standing = .underway final count → invariant final := by
  induction fuel generalizing graph iterations journal with
  | zero =>
    refine Delivers.pure ?_
    rintro _ _ ⟨⟩
    exact hgraph
  | succ fuel ih =>
    refine (iterated_of_iterate graph iterations journal).bind fun standing after hiterated ↦ ?_
    cases standing with
    | finished outcome => exact Delivers.pure nofun
    | underway refined next =>
      exact ih (hstep graph refined hgraph (hiterated refined next rfl)) next after

/-- What building gives and every iteration keeps holds of the graph with which a run goes on. -/
theorem verify_induction (invariant : AbstractGraph → Prop) {automaton : Automaton}
    {precisions : PrecisionTable Precision}
    (hbuild : ∀ graph, AbstractGraph.build automaton precisions = .ok graph → invariant graph)
    (hstep : ∀ graph refined, invariant graph → verification.Iterated graph refined →
      invariant refined) {fuel : Nat} {journal after : Journal} {graph : AbstractGraph}
    {iterations : Nat} (hrun : (verification.verify automaton precisions fuel).run.run journal =
      (.ok (.underway graph iterations), after)) : invariant graph := by
  have hdelivers : Delivers (fun _ ↦ True) (verification.verify automaton precisions fuel) journal
      fun standing _ ↦ ∀ final count, standing = .underway final count → invariant final := by
    refine Delivers.ofFault_bind (Yields.of_forall fun start hstart ↦ hbuild start hstart)
      (fun _ _ ↦ trivial) fun start hstart ↦ ?_
    exact run_induction invariant hstep fuel hstart 0 journal
  exact hdelivers.result hrun graph iterations rfl

/-- What a search leaves behind stays consistent throughout a run, whatever the automaton, the
precisions, the kind of interpolants and the check of paths are. In every iteration that finds a
path, the search remembers the path and highlights just its states; and every refinement by this
path leaves no highlights, and a search that can be resumed at a position within the trace. -/
theorem verify_resumable {plan : Plan} {kind : InterpolantKind} {direction : Direction}
    (hinterpolate : plan.InterpolatesExactly kind direction) (hsplit : plan.SplitsExactly)
    {limit : Option Nat} {style : Option DrawingStyle} {automaton : Automaton}
    {precisions : PrecisionTable Precision} {fuel : Nat} {journal after : Journal}
    {graph : AbstractGraph} {iterations : Nat}
    (hrun : ((⟨plan, limit, style⟩ : Verification).verify automaton precisions fuel).run.run
      journal = (.ok (.underway graph iterations), after))
    {searched : AbstractGraph} {path : List StateId}
    (hsearch : graph.findPath = .ok (searched, some path)) :
    searched.lastPath = path ∧
    (∀ id, (∃ state ∈ searched.states, state.id = id ∧ state.highlighted = true) ↔ id ∈ path) ∧
    ∀ trace call before refined final,
      (plan.refine style call searched path trace).run.run before = (.ok (some refined), final) →
        refined.Resumable trace.length := by
  have hrefinedBy : ∀ {style call searched path trace before refined final},
      (plan.refine style call searched path trace).run.run before = (.ok (some refined), final) →
        searched.RefinedBy kind direction path trace refined := fun hrefine ↦
    (Plan.refinedBy_of_refine hinterpolate hsplit _ _ _ _ _ _).result hrefine _ rfl
  have htidy : graph.Tidy := by
    refine verify_induction AbstractGraph.Tidy (fun _ ↦ AbstractGraph.tidy_of_build) ?_ hrun
    rintro graph refined htidy ⟨searched, path, trace, call, before, final, hfound, hrefine⟩
    exact (htidy.refinedBy hfound (hrefinedBy hrefine)).1
  obtain ⟨hlast, hmarked⟩ := htidy.searched hsearch
  refine ⟨hlast, hmarked, fun trace call before refined final hrefine ↦ ?_⟩
  exact (htidy.refinedBy hsearch (hrefinedBy hrefine)).2

open AbstractGraph

theorem verify_parallelRelay (verification : Verification) (journal : Journal) :
    (verification.verify (relayAutomaton parallelEntries) (.uniform .empty) 0).run.run journal =
      (.ok (.underway (relayGraph parallelEntries) 0), journal) := by
  rw [verify, build_parallelRelay]
  rfl

/-- The first path through the relay is refined by at its second position, and from there the search
can be resumed. -/
theorem verify_resumable_relay : ∃ trace refined after,
    ((Plan.exact .binary .forward).refine none 1 (searchedRelay parallelEntries) relayPath
      trace).run.run (.start false) = (.ok (some refined), after) ∧
    refined.resumeAt = 1 ∧ refined.Resumable 2 := by
  have hunderway := verify_parallelRelay ⟨.exact .binary .forward, none, none⟩ (.start false)
  obtain ⟨-, -, hrefine⟩ := verify_resumable (fun _ _ _ _ ↦ rfl) (fun _ _ _ _ ↦ rfl) hunderway
    findPath_parallelRelay
  have hread : (((Plan.exact .binary .forward).refine none 1 (searchedRelay parallelEntries)
      relayPath ⟨[⟨⟨0⟩, ⟨[0]⟩⟩, ⟨⟨1⟩, ⟨[0]⟩⟩]⟩).run.run (.start false)).1.map
        (·.map (·.resumeAt)) = .ok (some 1) := by decide +kernel
  obtain ⟨refined, after, hresult, hindex⟩ := exists_some_of_map hread
  exact ⟨_, refined, after, hresult, hindex, hrefine _ _ _ _ _ hresult⟩

end Verification

end TimedSafety
