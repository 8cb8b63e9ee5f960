import TimedSafety.Proofs.Graph.Search
import TimedSafety.Proofs.Verification.Delivery
import TimedSafety.Verification.Loop

/-!
The verification loop, for any plan that splits states by exact zones. The graph of every iteration
is a faithful abstraction of the automaton, so a run that ends for lack of an error path has shown
the automaton safe. What the other two phases of a plan contribute is left open: `Plan.Conducts`
says what they deliver on a path, and what a run delivers follows from it (`run_delivers`).
-/

set_option autoImplicit false

namespace TimedSafety

variable {admitted : Fault → Prop} {may : Failure VerificationError → Prop}

/-! ### Texts and drawings -/

theorem Zone.text_yields (hmay : Tolerant admitted) (zone : Zone) :
    Yields admitted zone.text fun _ ↦ True := by
  unfold text
  split_ifs
  · trivial
  · exact (atoms_yields_any hmay zone).bind fun _ _ ↦ trivial

theorem Formula.text_yields (hmay : Tolerant admitted) (formula : Formula) :
    Yields admitted formula.text fun _ ↦ True := by
  cases formula with
  | reach zone => exact zone.text_yields hmay
  | avoid zone => exact (zone.text_yields hmay).bind fun _ _ ↦ trivial

theorem Interpolant.text_yields (hmay : Tolerant admitted) (interpolant : Interpolant) :
    Yields admitted interpolant.text fun _ ↦ True := by
  have hentries : Yields admitted (interpolant.formulas.mapM fun position ↦ do
      let formulaText ← position.2.text
      return s!"{position.1}: {formulaText}")
      (List.Forall₂ (fun _ _ ↦ True) interpolant.formulas) :=
    Yields.mapM fun position _ ↦ (position.2.text_yields hmay).bind fun _ _ ↦ trivial
  exact hentries.bind fun _ _ ↦ trivial

namespace AbstractGraph

variable {graph : AbstractGraph}

theorem drawState_yields (hmay : Tolerant admitted) (hexact : graph.StatesExact)
    (hwell : graph.automaton.WellFormed) (style : DrawingStyle) (state : AbstractState) :
    Yields admitted (graph.drawState style state) fun _ ↦ True := by
  unfold drawState
  by_cases hzones : style.showZones = true
  · rw [if_pos hzones]
    refine (state.zone.text_yields hmay).bind fun label _ ↦ ?_
    exact (isErrorState_yields hmay hexact hwell state.id).bind fun _ _ ↦ trivial
  · rw [if_neg hzones]
    exact (isErrorState_yields hmay hexact hwell state.id).bind fun _ _ ↦ trivial

/-- An exact graph can be drawn. -/
theorem draw_yields (hmay : Tolerant admitted) (hexact : graph.StatesExact)
    (hwell : graph.automaton.WellFormed) (style : DrawingStyle) :
    Yields admitted (graph.draw style) fun _ ↦ True := by
  have hlocations : Yields admitted (graph.automaton.locations.mapM (graph.drawLocation style))
      (List.Forall₂ (fun _ _ ↦ True) graph.automaton.locations) := by
    refine Yields.mapM fun location hlocation ↦ ?_
    obtain ⟨place, -, hplace⟩ :=
      Automaton.exists_place (Automaton.mem_locations_iff.mp hlocation)
    rw [drawLocation, hplace]
    have hstates : Yields admitted ((graph.statesAt location).mapM (graph.drawState style))
        (List.Forall₂ (fun _ _ ↦ True) (graph.statesAt location)) :=
      Yields.mapM fun state _ ↦ drawState_yields hmay hexact hwell style state
    exact hstates.bind fun _ _ ↦ trivial
  exact hlocations.bind fun _ _ ↦ trivial

end AbstractGraph

namespace Plan

theorem observeInterpolant_delivers (hadmits : ∀ fault, admitted fault → may (.broken fault))
    (style : Option DrawingStyle) {interpolant : Interpolant}
    (htext : Yields admitted interpolant.text fun _ ↦ True) (journal : Journal) :
    Delivers may (observeInterpolant style interpolant) journal fun _ after ↦
      after.stopped = journal.stopped := by
  cases style with
  | none => exact Delivers.pure rfl
  | some style =>
    exact Delivers.ofFault_bind htext hadmits fun text _ ↦ rfl

theorem observeGraph_delivers (hadmits : ∀ fault, admitted fault → may (.broken fault))
    (style : Option DrawingStyle) {graph : AbstractGraph}
    (hdraw : ∀ style, Yields admitted (graph.draw style) fun _ ↦ True) (journal : Journal) :
    Delivers may (observeGraph style graph) journal fun _ after ↦
      after.stopped = journal.stopped := by
  cases style with
  | none => exact Delivers.pure rfl
  | some style =>
    exact Delivers.ofFault_bind (hdraw style) hadmits fun _ _ ↦ rfl

end Plan

/-! ### Refining -/

namespace AbstractGraph

/-- The graph is an exact abstraction of the automaton, and no fault but an admitted one is to be
expected from its precisions. -/
structure Faithful (admitted : Fault → Prop) (automaton : Automaton) (graph : AbstractGraph) :
    Prop where
  automaton_eq : graph.automaton = automaton
  exact : graph.Exact
  covered : ∀ location ∈ automaton.locations, graph.precisions.precision? location = none →
    admitted (.noPrecision location)

theorem Faithful.alike {automaton : Automaton} {graph after : AbstractGraph}
    (hfaithful : graph.Faithful admitted automaton) (halike : graph.Alike after) :
    after.Faithful admitted automaton := by
  refine ⟨halike.automaton_eq.trans hfaithful.automaton_eq, hfaithful.exact.alike halike, ?_⟩
  rw [halike.precisions_eq]
  exact hfaithful.covered

theorem Faithful.advance {automaton : Automaton} {graph : AbstractGraph} {path : List StateId}
    {done : List (Nat × Formula)} {progress : SplitProgress}
    (hfaithful : graph.Faithful admitted automaton)
    (hadvances : graph.Advances path done progress) :
    progress.graph.Faithful admitted automaton := by
  refine ⟨hadvances.later.automaton_eq.trans hfaithful.automaton_eq, hadvances.exact, ?_⟩
  intro location hlocation hnone
  refine hfaithful.covered location hlocation (Option.eq_none_iff_forall_ne_some.mpr ?_)
  intro precision hsome
  have hkept := hadvances.covered location (by rw [hsome]; rfl)
  rw [hnone] at hkept
  contradiction

/-- Splitting along the interpolant meets no fault but admitted ones: its positions lie on the path,
its atoms speak of the clocks, and some state is split. -/
structure Refinable (admitted : Fault → Prop) (graph : AbstractGraph) (path : List StateId)
    (interpolant : Interpolant) : Prop where
  positions : ∀ position ∈ interpolant.formulas,
    path[position.1]? = none → admitted .indexOutOfBounds
  atoms : ∀ position ∈ interpolant.formulas, Yields admitted position.2.zone.atoms fun atoms ↦
    ∀ atom ∈ atoms, atom.Tolerated admitted graph.automaton.clocks
  progress : graph.Settled path interpolant.formulas [] → admitted .noProgress

/-- Where all faults are admitted, anything may be split along. -/
theorem refinable_true (graph : AbstractGraph) (path : List StateId) (interpolant : Interpolant) :
    graph.Refinable (fun _ ↦ True) path interpolant :=
  ⟨fun _ _ _ ↦ trivial, fun _ _ ↦ .of_forall fun _ _ atom _ ↦ atom.tolerated_true _,
    fun _ ↦ trivial⟩

theorem Faithful.splitAlong_yields {automaton : Automaton} {graph : AbstractGraph}
    (hfaithful : graph.Faithful admitted automaton) (hmay : Tolerant admitted)
    (htolerated : automaton.Tolerated admitted) {path : List StateId} {interpolant : Interpolant}
    (hrefinable : graph.Refinable admitted path interpolant) :
    Yields admitted (graph.splitAlong path interpolant) fun result ↦
      ∃ progress : SplitProgress, progress.graph = result.1 ∧
        graph.Advances path interpolant.formulas progress ∧
        graph.Settled path interpolant.formulas progress.split := by
  obtain rfl := hfaithful.automaton_eq
  exact AbstractGraph.splitAlong_yields hmay hfaithful.exact htolerated hrefinable.positions
    hfaithful.covered hrefinable.atoms

/-- What a refinement makes of a graph. -/
structure Refined (admitted : Fault → Prop) (automaton : Automaton)
    (graph refined : AbstractGraph) : Prop where
  faithful : refined.Faithful admitted automaton
  grown : graph.states.length < refined.states.length

end AbstractGraph

namespace Plan

/-- The plan splits states by exact zones. -/
def SplitsExactly (plan : Plan) : Prop :=
  ∀ call graph path interpolant, plan.split call graph path interpolant =
    Recorded.ofFault (graph.splitAlong path interpolant)

/-- The plan checks paths by replaying them with exact zones. -/
def ChecksExactly (plan : Plan) : Prop :=
  ∀ call graph path, plan.check call graph path = Recorded.ofFault (graph.replay path)

section Refine

variable {plan : Plan} {automaton : Automaton} {graph : AbstractGraph} {path : List StateId}
variable {stoppable : Prop}

/-- What a refinement does once the interpolant is known. -/
theorem refine_delivers (hmay : Tolerant admitted)
    (hadmits : ∀ fault, admitted fault → may (.broken fault)) (hplan : plan.SplitsExactly)
    (htolerated : automaton.Tolerated admitted) (hfaithful : graph.Faithful admitted automaton)
    (style : Option DrawingStyle) (call : Nat) {trace : Trace} {journal : Journal}
    (hfit : trace.length = 0 ∨ path.length < trace.length →
      admitted (.traceMisfit trace.length path.length))
    (hinterpolate : Delivers (fun failure ↦ may (failure.map .solver))
      (plan.interpolate call graph path trace) journal fun interpolant after ↦
        graph.Refinable admitted path interpolant ∧ (after.stopped = true → stoppable)) :
    Delivers may (plan.refine style call graph path trace) journal fun refined after ↦
      (after.stopped = true → stoppable) ∧
        refined.elim stoppable (graph.Refined admitted automaton) := by
  unfold refine
  by_cases hmisfit : trace.length = 0 ∨ path.length < trace.length
  · rw [if_pos hmisfit]
    exact Delivers.throw (hadmits _ (hfit hmisfit))
  rw [if_neg hmisfit]
  refine hinterpolate.mapError.bind ?_
  rintro interpolant seen ⟨hrefinable, hstop⟩
  refine (observeInterpolant_delivers hadmits style (interpolant.text_yields hmay) seen).bind
    fun _ shown hshown ↦ ?_
  rw [← hshown] at hstop
  refine Delivers.unlessStopped (fun hstopped ↦ ⟨hstop, hstop hstopped⟩) ?_
  have hphase : Delivers may ((plan.split call graph path interpolant).mapError .solver) shown
      fun result after ↦ after = shown ∧ ∃ progress : AbstractGraph.SplitProgress,
        progress.graph = result.1 ∧ graph.Advances path interpolant.formulas progress ∧
          graph.Settled path interpolant.formulas progress.split := by
    rw [hplan]
    have hsplit := hfaithful.splitAlong_yields hmay htolerated hrefinable
    exact Delivers.mapError (Delivers.ofFault (hsplit.mono fun _ hresult ↦ ⟨rfl, hresult⟩) hadmits)
  refine hphase.bind ?_
  rintro ⟨split, first⟩ _ ⟨rfl, progress, rfl, hadvances, hsettled⟩
  refine Delivers.unlessStopped (fun hstopped ↦ ⟨hstop, hstop hstopped⟩) ?_
  dsimp only
  by_cases hgrown : progress.graph.states.length ≤ graph.states.length
  · -- Each state that was split added to the number of states, so none was.
    rw [if_pos hgrown]
    refine Delivers.throw (hadmits _ (hrefinable.progress ?_))
    have hlength := hadvances.grown
    have hnone : progress.split = [] := List.length_eq_zero_iff.mp (by omega)
    rwa [hnone] at hsettled
  rw [if_neg hgrown]
  have halike := (AbstractGraph.alike_setHighlights progress.graph path false).remember
    (progress.graph.setHighlights path false).lastPath first
  have hrefined := (hfaithful.advance hadvances).alike halike
  refine (observeGraph_delivers hadmits style (AbstractGraph.draw_yields hmay
    hrefined.exact.toStatesExact (by rw [hrefined.automaton_eq]; exact htolerated.wellFormed))
    _).bind fun _ after hafter ↦ ?_
  rw [← hafter] at hstop
  refine Delivers.pure ⟨hstop, hrefined, ?_⟩
  rw [halike.length_eq]
  exact not_le.mp hgrown

end Refine

/-! ### Iterating -/

/-- What the plan delivers when it checks a path: the trace of a feasible path is a violation, and
from that of an infeasible one follows an interpolant to refine by. The run is stopped only where it
is stoppable. -/
def Conducts (admitted : Fault → Prop) (may : Failure VerificationError → Prop)
    (stoppable : Prop) (violation : Trace → Prop) (plan : Plan) (call : Nat)
    (graph : AbstractGraph) (path : List StateId) : Prop :=
  ∀ journal : Journal, (journal.stopped = true → stoppable) →
    Delivers (fun failure ↦ may (failure.map .solver)) (plan.check call graph path) journal
      fun verdict after ↦ match verdict with
        | .feasible trace => violation trace ∧ (after.stopped = true → stoppable)
        | .infeasible trace =>
          (trace.length = 0 ∨ path.length < trace.length →
            admitted (.traceMisfit trace.length path.length)) ∧
          Delivers (fun failure ↦ may (failure.map .solver))
            (plan.interpolate call graph path trace) after fun interpolant final ↦
              graph.Refinable admitted path interpolant ∧ (final.stopped = true → stoppable)

end Plan

/-- The outcome says what is the case: that the automaton is safe, that the trace is a violation, or
that the run could be stopped. -/
def Outcome.Justified (automaton : Automaton) (violation : Trace → Prop) (stoppable : Prop) :
    Outcome → Prop
  | safe _ _ => automaton.IsSafe
  | violated trace _ => violation trace
  | cancelled => stoppable

namespace Verification

variable {verification : Verification} {automaton : Automaton} {graph : AbstractGraph}
variable {stoppable : Prop} {violation : Trace → Prop}

/-- One iteration ends the run with a justified outcome, or refines the graph. -/
theorem iterate_delivers (hmay : Tolerant admitted)
    (hadmits : ∀ fault, admitted fault → may (.broken fault))
    (hlimit : ∀ limit, may (.reported (.iterationLimit limit)))
    (hplan : verification.plan.SplitsExactly) (htolerated : automaton.Tolerated admitted)
    (hfaithful : graph.Faithful admitted automaton) (iterations : Nat)
    (hconducts : ∀ searched path, searched.Faithful admitted automaton → searched.ErrorPath path →
      verification.plan.Conducts admitted may stoppable violation (iterations + 1) searched path)
    {journal : Journal} (hstop : journal.stopped = true → stoppable) :
    Delivers may (verification.iterate graph iterations) journal fun standing after ↦
      (after.stopped = true → stoppable) ∧ match standing with
        | .finished outcome => outcome.Justified automaton violation stoppable
        | .underway refined next =>
          graph.Refined admitted automaton refined ∧ next = iterations + 1 := by
  refine Delivers.unlessStopped (fun hstopped ↦ ⟨hstop, hstop hstopped⟩) ?_
  cases verification.exhausted iterations with
  | some limit => exact Delivers.throw (hlimit limit)
  | none =>
    have hwell : graph.automaton.WellFormed := by
      rw [hfaithful.automaton_eq]
      exact htolerated.wellFormed
    refine Delivers.ofFault_bind (AbstractGraph.findPath_yields hmay hfaithful.exact hwell)
      hadmits ?_
    rintro ⟨searched, found⟩ ⟨halike, hfound⟩
    cases found with
    | none =>
      have hsafe := AbstractGraph.Secured.isSafe hfound hfaithful.exact hwell
      rw [hfaithful.automaton_eq] at hsafe
      exact Delivers.pure ⟨hstop, hsafe⟩
    | some path =>
      have hsearched := hfaithful.alike halike
      refine (Delivers.mapError (hconducts searched path hsearched (hfound.alike halike) journal
        hstop)).bind fun verdict checked hverdict ↦ ?_
      cases verdict with
      | feasible trace => exact Delivers.pure hverdict.symm
      | infeasible trace =>
        refine (Plan.refine_delivers hmay hadmits hplan htolerated hsearched verification.style
          (iterations + 1) hverdict.1 hverdict.2).bind ?_
        rintro refined after ⟨hafter, hrefined⟩
        cases refined with
        | none => exact Delivers.pure ⟨hafter, hrefined⟩
        | some refined =>
          refine Delivers.pure ⟨hafter, ⟨hrefined.faithful, ?_⟩, rfl⟩
          rw [← halike.length_eq]
          exact hrefined.grown

/-- What holds where a run stands: its outcome is justified, or its graph is faithful. -/
def Holds (admitted : Fault → Prop) (automaton : Automaton) (violation : Trace → Prop)
    (stoppable : Prop) : Standing → Prop
  | .finished outcome => outcome.Justified automaton violation stoppable
  | .underway graph _ => graph.Faithful admitted automaton

/-- A run keeps the graph faithful from one iteration to the next, and ends with a justified
outcome. -/
theorem run_delivers (hmay : Tolerant admitted)
    (hadmits : ∀ fault, admitted fault → may (.broken fault))
    (hlimit : ∀ limit, may (.reported (.iterationLimit limit)))
    (hplan : verification.plan.SplitsExactly) (htolerated : automaton.Tolerated admitted)
    (hconducts : ∀ call searched path, searched.Faithful admitted automaton →
      searched.ErrorPath path →
        verification.plan.Conducts admitted may stoppable violation call searched path)
    (fuel : Nat) (hfaithful : graph.Faithful admitted automaton) (iterations : Nat)
    {journal : Journal} (hstop : journal.stopped = true → stoppable) :
    Delivers may (verification.run fuel graph iterations) journal fun standing after ↦
      (after.stopped = true → stoppable) ∧
        Holds admitted automaton violation stoppable standing := by
  induction fuel generalizing graph iterations journal with
  | zero => exact Delivers.pure ⟨hstop, hfaithful⟩
  | succ fuel ih =>
    refine (iterate_delivers hmay hadmits hlimit hplan htolerated hfaithful iterations
      (hconducts (iterations + 1)) hstop).bind ?_
    rintro (outcome | ⟨refined, next⟩) after ⟨hafter, hstanding⟩
    · exact Delivers.pure ⟨hafter, hstanding⟩
    · exact ih hstanding.1.faithful next hafter

/-- What a run from the start delivers. -/
theorem verify_delivers (hmay : Tolerant admitted)
    (hadmits : ∀ fault, admitted fault → may (.broken fault))
    (hlimit : ∀ limit, may (.reported (.iterationLimit limit)))
    (hplan : verification.plan.SplitsExactly) (htolerated : automaton.Tolerated admitted)
    {precisions : PrecisionTable Precision}
    (hprecisions : AbstractGraph.PrecisionsTolerated admitted automaton precisions)
    (hconducts : ∀ call searched path, searched.Faithful admitted automaton →
      searched.ErrorPath path →
        verification.plan.Conducts admitted may stoppable violation call searched path)
    (fuel : Nat) {journal : Journal} (hstop : journal.stopped = true → stoppable) :
    Delivers may (verification.verify automaton precisions fuel) journal fun standing after ↦
      (after.stopped = true → stoppable) ∧
        Holds admitted automaton violation stoppable standing := by
  refine Delivers.ofFault_bind (AbstractGraph.build_yields hmay htolerated hprecisions) hadmits ?_
  rintro graph ⟨hautomaton, hsame, hexact, -⟩
  have hfaithful : graph.Faithful admitted automaton := by
    refine ⟨hautomaton, hexact, ?_⟩
    rw [hsame]
    exact hprecisions.missing
  exact run_delivers hmay hadmits hlimit hplan htolerated hconducts fuel hfaithful 0 hstop

end Verification

end TimedSafety
