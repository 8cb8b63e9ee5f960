import TimedSafety.Proofs.Graph.Evolution
import TimedSafety.Proofs.Graph.Interpolation
import TimedSafety.Proofs.Verification.Loop

/-!
Runs of the exact plans keep all their promises. For an automaton whose constants were checked, and
precisions for all its locations over its clocks, no step of a run meets a fault other than an
overflow: every infeasible path is interpolated, the state where it fails is replaced by at least
two pieces, and the number of states grows. So a run ends with an outcome, at its limit of
iterations, or by an overflow.
-/

set_option autoImplicit false

namespace TimedSafety

/-! ### Checked constants -/

namespace Automaton

variable {automaton : Automaton}

/-- The checked constructors accept the constants of all commands. -/
def Checked (automaton : Automaton) : Prop :=
  ∀ edge ∈ automaton.edges, ∀ command ∈ edge.commands, command.Checked

theorem Checked.inRange (hchecked : automaton.Checked) : automaton.ConstantsInRange :=
  fun edge hedge command hcommand _ hvalue ↦ (hchecked edge hedge command hcommand).range hvalue

theorem Checked.tolerated (hchecked : automaton.Checked) (hwell : automaton.WellFormed)
    (admitted : Fault → Prop) : automaton.Tolerated admitted :=
  ⟨hwell, fun edge hedge command hcommand ↦
    (hchecked edge hedge command hcommand).keepsNonNegative,
    fun edge hedge command hcommand _ hvalue hrange ↦
      absurd ((hchecked edge hedge command hcommand).range hvalue) hrange⟩

end Automaton

/-! ### One refinement -/

namespace AbstractGraph

variable {admitted : Fault → Prop} {graph : AbstractGraph} {path : List StateId}
variable {zones : List Zone} {trace : Trace} {kind : InterpolantKind} {interpolant : Interpolant}

/-- The trace of an infeasible path goes as far as the zones, and where that is all of the path, it
is not feasible. -/
theorem Judges.infeasible (hjudges : graph.Judges path zones (.infeasible trace)) :
    trace.length = zones.length ∧ (zones.length = path.length → ¬ graph.Feasible path) := by
  have htraces : graph.Traces path 0 zones (trace.steps, false) := hjudges.traces
  refine ⟨htraces.length_eq, fun hfull hfeasible ↦ ?_⟩
  have hpos := List.length_pos_iff.mpr hjudges.nonempty
  exact absurd (htraces.feasible_iff.mpr ⟨by omega, by omega, hfeasible⟩) Bool.false_ne_true

/-- An interpolant of an infeasible path splits the state at which the path fails. -/
theorem Covers.mem_split
    (hcovers : Covers kind zones.length (graph.FormulaAt path) interpolant)
    (hexact : graph.Exact) (herror : graph.ErrorPath path)
    (hjudges : graph.Judges path zones (.infeasible trace)) {split : List StateId}
    (hsettled : graph.Settled path interpolant.formulas split) {id : StateId}
    (hid : path[zones.length - 1]? = some id) : id ∈ split := by
  obtain ⟨formula, hformula⟩ := hcovers.last
  obtain ⟨state, hstate⟩ := herror.exists_state hexact id (List.mem_of_getElem? hid)
  obtain ⟨hmember, hsame⟩ := (state?_eq_some_iff hexact.distinct).mp hstate
  obtain ⟨other, hother, hstates⟩ := hsettled _ hformula
  obtain rfl : id = other := Option.some.inj (hid.symm.trans hother)
  -- The state holds something reached and something unreached, so the formula can not be uniform.
  refine (hstates state hmember hsame).resolve_right ?_
  refine (hcovers.formula _ hformula).2.not_uniformOn hexact hid hstate ?_
    (hjudges.reached.exists_unreached hexact herror hjudges.nonempty hjudges.infeasible.2 hid
      hstate)
  have hlast := List.length_pos_iff.mpr hjudges.nonempty
  have hzone := List.getElem?_eq_getElem (Nat.sub_lt hlast Nat.one_pos)
  have hdenotes := hjudges.reached.denotes _ _ hzone
  rw [Nat.zero_add] at hdenotes
  obtain ⟨valuation, hmem⟩ := (Zone.exists_mem_iff hdenotes.canonical).mp
    (hjudges.reached.nonempty _ (List.mem_of_getElem? hzone))
  exact ⟨valuation, (hdenotes.mem_iff valuation).mp hmem⟩

theorem Judges.exists_failure (hjudges : graph.Judges path zones (.infeasible trace)) :
    ∃ id, path[zones.length - 1]? = some id := by
  have hpos := List.length_pos_iff.mpr hjudges.nonempty
  have hlength := hjudges.reached.length_le
  exact ⟨_, List.getElem?_eq_getElem (by omega)⟩

theorem Covers.refinable
    (hcovers : Covers kind zones.length (graph.FormulaAt path) interpolant)
    (hmay : Tolerant admitted) (hexact : graph.Exact) (herror : graph.ErrorPath path)
    (hjudges : graph.Judges path zones (.infeasible trace)) :
    graph.Refinable admitted path interpolant := by
  refine ⟨fun position hposition hnone ↦ ?_, fun position hposition ↦ ?_, fun hsettled ↦ ?_⟩
  · have hbelow := (hcovers.formula position hposition).1
    have hlength := hjudges.reached.length_le
    rw [List.getElem?_eq_getElem (by omega)] at hnone
    contradiction
  · have hformula := (hcovers.formula position hposition).2
    refine (Zone.atoms_yields hmay hformula.denotes hformula.nonempty).mono ?_
    exact fun atoms hatoms atom hatom ↦ (hatoms.1 atom hatom).2.tolerated admitted
  · obtain ⟨id, hid⟩ := hjudges.exists_failure
    exact absurd (hcovers.mem_split hexact herror hjudges hsettled hid) List.not_mem_nil

/-- The state at which the path fails is replaced by at least two pieces. -/
theorem Covers.replaces
    (hcovers : Covers kind zones.length (graph.FormulaAt path) interpolant)
    (hexact : graph.Exact) (herror : graph.ErrorPath path)
    (hjudges : graph.Judges path zones (.infeasible trace)) {progress : SplitProgress}
    (hadvances : graph.Advances path interpolant.formulas progress)
    (hsettled : graph.Settled path interpolant.formulas progress.split) :
    ∃ id old, path[trace.length - 1]? = some id ∧ graph.state? id = some old ∧
      graph.Replaced progress.graph old := by
  obtain ⟨id, hid⟩ := hjudges.exists_failure
  obtain ⟨old, hold⟩ := herror.exists_state hexact id (List.mem_of_getElem? hid)
  obtain ⟨hmember, hsame⟩ := (state?_eq_some_iff hexact.distinct).mp hold
  have hfresh : ∀ other ∈ path, other.number < graph.nextId.number := by
    intro other hother
    obtain ⟨state, hstate⟩ := herror.exists_state hexact other hother
    obtain ⟨hstateMember, rfl⟩ := (state?_eq_some_iff hexact.distinct).mp hstate
    exact hexact.fresh state hstateMember
  have hsplit := hcovers.mem_split hexact herror hjudges hsettled hid
  rw [hjudges.infeasible.1]
  exact ⟨id, old, hid, hold, (hadvances.replaced hfresh id hsplit).2 old hmember hsame⟩

end AbstractGraph

/-! ### Exact plans -/

section Exact

variable {admitted : Fault → Prop} {may : Failure VerificationError → Prop}
variable {automaton : Automaton} {graph : AbstractGraph} {path : List StateId}

/-- The interpolant of an infeasible path, by an exact plan. -/
theorem AbstractGraph.Judges.interpolate_yields {zones : List Zone} {trace : Trace}
    (hjudges : graph.Judges path zones (.infeasible trace)) (hmay : Tolerant admitted)
    (htolerated : automaton.Tolerated admitted) (hrange : automaton.ConstantsInRange)
    (hfaithful : graph.Faithful admitted automaton) (herror : graph.ErrorPath path)
    (kind : InterpolantKind) (direction : Direction) :
    Yields (fun failure ↦ ∃ fault, failure = .broken fault ∧ admitted fault)
      (graph.interpolate kind direction path trace)
      (Covers kind zones.length (graph.FormulaAt path)) := by
  obtain rfl := hfaithful.automaton_eq
  exact AbstractGraph.interpolate_yields hmay hfaithful.exact htolerated hrange herror kind
    direction hjudges.reachAlong_eq hjudges.reached hjudges.nonempty hjudges.infeasible.1

theorem AbstractGraph.Judges.fits {zones : List Zone} {trace : Trace}
    (hjudges : graph.Judges path zones (.infeasible trace)) :
    ¬ (trace.length = 0 ∨ path.length < trace.length) := by
  have hpos := List.length_pos_iff.mpr hjudges.nonempty
  have hlength := hjudges.reached.length_le
  have htrace := hjudges.infeasible.1
  omega

/-- What an exact plan interpolates, for a refinement that begins with the given journal. -/
theorem Plan.exact_interpolate_delivers {zones : List Zone} {trace : Trace}
    (hmay : Tolerant admitted) (hadmits : ∀ fault, admitted fault → may (.broken fault))
    (htolerated : automaton.Tolerated admitted) (hrange : automaton.ConstantsInRange)
    (hfaithful : graph.Faithful admitted automaton) (herror : graph.ErrorPath path)
    (hjudges : graph.Judges path zones (.infeasible trace)) (kind : InterpolantKind)
    (direction : Direction) (call : Nat) (journal : Journal) :
    Delivers (fun failure ↦ may (failure.map .solver))
      ((Plan.exact kind direction).interpolate call graph path trace) journal
      fun interpolant after ↦ graph.Refinable admitted path interpolant ∧
        (after.stopped = true → journal.stopped = true) := by
  have hinterpolate := hjudges.interpolate_yields hmay htolerated hrange hfaithful herror kind
    direction
  refine Delivers.ofExcept ((hinterpolate.mono fun interpolant hcovers ↦ ?_).weaken ?_)
  · exact ⟨hcovers.refinable hmay hfaithful.exact herror hjudges, id⟩
  · rintro _ ⟨fault, rfl, hfault⟩
    exact hadmits fault hfault

theorem Plan.exact_conducts (hmay : Tolerant admitted)
    (hadmits : ∀ fault, admitted fault → may (.broken fault))
    (htolerated : automaton.Tolerated admitted) (hrange : automaton.ConstantsInRange)
    (hfaithful : graph.Faithful admitted automaton) (herror : graph.ErrorPath path)
    (kind : InterpolantKind) (direction : Direction) (call : Nat) (stoppable : Prop) :
    (Plan.exact kind direction).Conducts admitted may stoppable automaton.Violates call graph
      path := by
  intro journal hstop
  have hreplay := AbstractGraph.replay_yields hmay hfaithful.exact
    (by rwa [hfaithful.automaton_eq]) herror
  refine Delivers.ofFault (hreplay.mono ?_) hadmits
  rintro (trace | trace) ⟨zones, hjudges⟩
  · refine ⟨?_, hstop⟩
    rw [← hfaithful.automaton_eq]
    exact hjudges.violates hfaithful.exact herror
  · refine ⟨fun hmisfit ↦ absurd hmisfit hjudges.fits, ?_⟩
    refine (Plan.exact_interpolate_delivers hmay hadmits htolerated hrange hfaithful herror hjudges
      kind direction call journal).mono ?_
    exact fun interpolant after hafter ↦ ⟨hafter.1, fun hstopped ↦ hstop (hafter.2 hstopped)⟩

end Exact

namespace Verification

/-- What an exact plan makes of an infeasible path, overflows apart: an interpolant, a graph in
which the state at which the path fails is replaced by at least two pieces, and, unless the run is
to stop, a refined graph with more states. -/
structure Progresses (kind : InterpolantKind) (direction : Direction) (style : Option DrawingStyle)
    (graph : AbstractGraph) (path : List StateId) (trace : Trace) : Prop where
  splits : Yields Failure.IsOverflow (graph.interpolate kind direction path trace)
    fun interpolant ↦ Yields Fault.IsOverflow (graph.splitAlong path interpolant) fun result ↦
      ∃ id old, path[trace.length - 1]? = some id ∧ graph.state? id = some old ∧
        graph.Replaced result.1 old
  refines : ∀ (call : Nat) (journal : Journal), journal.stopped = false →
    Delivers Failure.IsOverflow ((Plan.exact kind direction).refine style call graph path trace)
      journal fun refined _ ↦ ∃ after, refined = some after ∧
        graph.states.length < after.states.length

theorem progresses_of_judges {automaton : Automaton} {graph : AbstractGraph} {path : List StateId}
    {zones : List Zone} {trace : Trace} (hwell : automaton.WellFormed)
    (hchecked : automaton.Checked) (hfaithful : graph.Faithful Fault.IsOverflow automaton)
    (herror : graph.ErrorPath path) (hjudges : graph.Judges path zones (.infeasible trace))
    (kind : InterpolantKind) (direction : Direction) (style : Option DrawingStyle) :
    Progresses kind direction style graph path trace := by
  have htolerated := hchecked.tolerated hwell Fault.IsOverflow
  refine ⟨?_, fun call journal hrunning ↦ ?_⟩
  · have hinterpolate := hjudges.interpolate_yields tolerant_isOverflow htolerated hchecked.inRange
      hfaithful herror kind direction
    refine (hinterpolate.mono fun interpolant hcovers ↦ ?_).weaken ?_
    · refine (hfaithful.splitAlong_yields tolerant_isOverflow htolerated
        (hcovers.refinable tolerant_isOverflow hfaithful.exact herror hjudges)).mono ?_
      rintro ⟨_, first⟩ ⟨progress, rfl, hadvances, hsettled⟩
      exact hcovers.replaces hfaithful.exact herror hjudges hadvances hsettled
    · rintro _ ⟨fault, rfl, hfault⟩
      exact hfault
  · refine (Plan.refine_delivers tolerant_isOverflow (fun _ hfault ↦ hfault) (fun _ _ _ _ ↦ rfl)
      htolerated hfaithful style call (fun hmisfit ↦ absurd hmisfit hjudges.fits)
      (Plan.exact_interpolate_delivers tolerant_isOverflow (fun _ hfault ↦ hfault) htolerated
        hchecked.inRange hfaithful herror hjudges kind direction call journal)).mono ?_
    rintro (_ | refined) after ⟨-, hrefined⟩
    · exact absurd (hrunning.symm.trans hrefined) Bool.false_ne_true
    · exact ⟨refined, rfl, hrefined.grown⟩

/-- Runs of the exact plans keep their promises. A run fails only by an overflow or at its limit of
iterations; and whenever it has found a path in the graph of an iteration and the replay of the path
says that it is infeasible, refining by it makes progress. -/
theorem verify_progresses {draft : AutomatonDraft} {automaton : Automaton}
    (hdraft : draft.build = .ok automaton) (hchecked : automaton.Checked)
    {precisions : PrecisionTable Precision}
    (hcovered : ∀ location ∈ automaton.locations, (precisions.precision? location).isSome)
    (hatoms : ∀ location precision, precisions.precision? location = some precision →
      ∀ atom ∈ precision.atoms, atom.Within automaton.clocks)
    (kind : InterpolantKind) (direction : Direction) (limit : Option Nat)
    (style : Option DrawingStyle) (fuel : Nat) (journal : Journal) :
    let run := ((⟨.exact kind direction, limit, style⟩ : Verification).verify automaton precisions
      fuel).run.run journal
    (∀ failure after, run = (.error failure, after) → failure.IsOverflow ∨
      ∃ iterations, failure = .reported (.iterationLimit iterations)) ∧
    ∀ graph iterations after, run = (.ok (.underway graph iterations), after) →
      ∀ searched path trace, graph.findPath = .ok (searched, some path) →
        searched.replay path = .ok (.infeasible trace) →
          Progresses kind direction style searched path trace := by
  intro run
  have hwell := AutomatonDraft.wellFormed_of_build hdraft
  have htolerated := hchecked.tolerated hwell Fault.IsOverflow
  have hprecisions : AbstractGraph.PrecisionsTolerated Fault.IsOverflow automaton precisions := by
    refine ⟨fun location hlocation hnone ↦ ?_, fun location precision hfound atom hatom ↦ ?_⟩
    · have hsome := hcovered location hlocation
      rw [hnone] at hsome
      contradiction
    · exact (hatoms location precision hfound atom hatom).tolerated Fault.IsOverflow
  have hdelivers : Delivers (fun failure ↦ failure.IsOverflow ∨
      ∃ iterations, failure = .reported (.iterationLimit iterations))
      ((⟨.exact kind direction, limit, style⟩ : Verification).verify automaton precisions fuel)
      journal fun standing _ ↦
        Holds Fault.IsOverflow automaton automaton.Violates True standing := by
    refine (verify_delivers tolerant_isOverflow (fun _ hfault ↦ Or.inl hfault)
      (fun limit ↦ Or.inr ⟨limit, rfl⟩) (fun _ _ _ _ ↦ rfl) htolerated hprecisions ?_ fuel
      fun _ ↦ trivial).mono fun _ _ hstanding ↦ hstanding.2
    intro call searched path hfaithful herror
    exact Plan.exact_conducts tolerant_isOverflow (fun _ hfault ↦ Or.inl hfault) htolerated
      hchecked.inRange hfaithful herror kind direction call True
  refine ⟨fun failure after hfailure ↦ hdelivers.failure hfailure, ?_⟩
  intro graph iterations after hunderway searched path trace hsearch hreplay
  have hfaithful : graph.Faithful Fault.IsOverflow automaton := hdelivers.result hunderway
  obtain ⟨halike, herror⟩ := (AbstractGraph.findPath_yields tolerant_true hfaithful.exact
    (by rwa [hfaithful.automaton_eq])).result hsearch
  have hsearched := hfaithful.alike halike
  obtain ⟨zones, hjudges⟩ := (AbstractGraph.replay_yields tolerant_isOverflow hsearched.exact
    (by rwa [hsearched.automaton_eq]) (herror.alike halike)).result hreplay
  exact progresses_of_judges hwell hchecked hsearched (herror.alike halike) hjudges kind direction
    style

open AbstractGraph

/-- The turnstile is to stay below one time unit while it is closed. -/
def turnstileInterpolant : Interpolant :=
  .sequence [.avoid { clocks := 1, matrix := .tabulate fun i j ↦
    if i.val < j.val then .atMost (-1) else if j.val < i.val then .infinite else .zero }]

/-- The first path through the urgent turnstile is infeasible. Backwards from its guard, the closed
state is to avoid waiting for a time unit; this splits the state, and refining leaves one state more
than before. -/
theorem progresses_turnstile : ∃ trace divided refined after,
    turnstileGraph.findPath = .ok (searchedTurnstile, some [⟨0⟩, ⟨1⟩]) ∧
    searchedTurnstile.replay [⟨0⟩, ⟨1⟩] = .ok (.infeasible trace) ∧
    searchedTurnstile.interpolate .sequence .backward [⟨0⟩, ⟨1⟩] trace =
      .ok turnstileInterpolant ∧
    searchedTurnstile.splitAlong [⟨0⟩, ⟨1⟩] turnstileInterpolant = .ok divided ∧
    (∃ old, searchedTurnstile.state? ⟨0⟩ = some old ∧ searchedTurnstile.Replaced divided.1 old) ∧
    ((Plan.exact .sequence .backward).refine none 1 searchedTurnstile [⟨0⟩, ⟨1⟩] trace).run.run
      (.start false) = (.ok (some refined), after) ∧
    searchedTurnstile.states.length < refined.states.length ∧
    Progresses .sequence .backward none searchedTurnstile [⟨0⟩, ⟨1⟩] trace := by
  have hunderway : ((⟨.exact .sequence .backward, none, none⟩ : Verification).verify
      (AutomatonDraft.turnstileAutomaton true) (.uniform .empty) 0).run.run (.start false) =
        (.ok (.underway turnstileGraph 0), .start false) := by
    rw [verify, build_turnstileGraph]
    rfl
  have hreplay : searchedTurnstile.replay [⟨0⟩, ⟨1⟩] =
      .ok (.infeasible ⟨[⟨⟨0⟩, ⟨[0]⟩⟩]⟩) := by decide +kernel
  have hinterpolate : searchedTurnstile.interpolate .sequence .backward [⟨0⟩, ⟨1⟩]
      ⟨[⟨⟨0⟩, ⟨[0]⟩⟩]⟩ = .ok turnstileInterpolant := by decide +kernel
  have hread : (searchedTurnstile.splitAlong [⟨0⟩, ⟨1⟩] turnstileInterpolant).map
      (fun _ ↦ ()) = .ok () := by decide +kernel
  obtain ⟨divided, hdivided, -⟩ := exists_ok_of_map hread
  have hcount : (((Plan.exact .sequence .backward).refine none 1 searchedTurnstile [⟨0⟩, ⟨1⟩]
      ⟨[⟨⟨0⟩, ⟨[0]⟩⟩]⟩).run.run (.start false)).1.map (·.map (·.states.length)) =
        .ok (some 3) := by decide +kernel
  obtain ⟨refined, after, hrefined, -⟩ := exists_some_of_map hcount
  have hcovered : ∀ location ∈ (AutomatonDraft.turnstileAutomaton true).locations,
      ((PrecisionTable.uniform Precision.empty).precision? location).isSome := by
    simp [PrecisionTable.precision?, PrecisionTable.uniform]
  have hprogresses := (verify_progresses (AutomatonDraft.build_turnstile true)
    (by unfold Automaton.Checked; decide) hcovered
    (by simp [PrecisionTable.precision?, PrecisionTable.uniform, PrecisionTable.explicit?,
      Precision.empty])
    .sequence .backward none none 0 (.start false)).2 _ _ _ hunderway _ _ _ findPath_turnstile
      hreplay
  obtain ⟨id, old, hid, hold, hreplaced⟩ :=
    (hprogresses.splits.result hinterpolate).result hdivided
  obtain rfl := Option.some.inj hid
  obtain ⟨_, hsome, hgrown⟩ := (hprogresses.refines 1 (.start false) rfl).result hrefined
  obtain rfl := Option.some.inj hsome
  exact ⟨_, divided, refined, after, findPath_turnstile, hreplay, hinterpolate, hdivided,
    ⟨old, hold, hreplaced⟩, hrefined, hgrown, hprogresses⟩

end Verification

end TimedSafety
