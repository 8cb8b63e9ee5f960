import TimedSafety.Proofs.Graph.Replay
import TimedSafety.Proofs.Verification.Loop

/-!
The verdicts of a run are right. A run that finds an automaton safe has split states by exact zones
and found no error path in the end, which is enough however paths were checked and interpolated. A
run that reports a violation has replayed an error path by exact zones, which is enough however
other paths were interpolated.
-/

set_option autoImplicit false

namespace TimedSafety.Verification

/-- What a run delivers if all faults are admitted. What its plan calls feasible must be a
violation; nothing is asked of its interpolants. -/
theorem verify_holds {automaton : Automaton} (hwell : automaton.WellFormed)
    (hresets : automaton.ResetsNonNegative) {verification : Verification}
    (hplan : verification.plan.SplitsExactly) (violation : Trace → Prop)
    (hcheck : ∀ call graph path journal, graph.Faithful (fun _ ↦ True) automaton →
      graph.ErrorPath path → Delivers (fun _ ↦ True) (verification.plan.check call graph path)
        journal fun verdict _ ↦ ∀ trace, verdict = .feasible trace → violation trace)
    (precisions : PrecisionTable Precision) (fuel : Nat) (journal : Journal) :
    Delivers (fun _ ↦ True) (verification.verify automaton precisions fuel) journal
      fun standing _ ↦ Holds (fun _ ↦ True) automaton violation True standing := by
  refine (verify_delivers tolerant_true (fun _ _ ↦ trivial) (fun _ ↦ trivial) hplan
    (hwell.tolerated_true hresets) ?_ ?_ fuel fun _ ↦ trivial).mono fun _ _ hstanding ↦ hstanding.2
  · exact ⟨fun _ _ _ ↦ trivial, fun _ _ _ atom _ ↦ atom.tolerated_true _⟩
  · intro call graph path hfaithful herror before _
    refine (hcheck call graph path before hfaithful herror).mono fun verdict after hverdict ↦ ?_
    cases verdict with
    | feasible trace => exact ⟨hverdict trace rfl, fun _ ↦ trivial⟩
    | infeasible trace =>
      refine ⟨fun _ ↦ trivial, (Delivers.any fun _ ↦ trivial).mono fun interpolant _ _ ↦ ?_⟩
      exact ⟨graph.refinable_true path interpolant, fun _ ↦ trivial⟩

/-- If a run finds an automaton safe, it is: no run of the automaton leads to an error. The plan
must split states by exact zones, but may check and interpolate in any way at all. -/
theorem isSafe_of_verify {draft : AutomatonDraft} {automaton : Automaton}
    (hbuild : draft.build = .ok automaton) (hresets : automaton.ResetsNonNegative)
    {verification : Verification} (hplan : verification.plan.SplitsExactly)
    {precisions : PrecisionTable Precision} {fuel iterations states : Nat} {before after : Journal}
    (hsafe : (verification.verify automaton precisions fuel).run.run before =
      (.ok (.finished (.safe iterations states)), after)) : automaton.IsSafe := by
  have hwell := AutomatonDraft.wellFormed_of_build hbuild
  have hholds := verify_holds hwell hresets hplan (fun _ ↦ True)
    (fun _ _ _ _ _ _ ↦ (Delivers.any fun _ ↦ trivial).mono fun _ _ _ _ _ ↦ trivial)
    precisions fuel before
  exact hholds.result hsafe

/-- A plan that takes every path for infeasible after its first step, and always cuts off zero. -/
def carelessPlan : Plan :=
  { Plan.exact .binary .forward with
    check := fun _ _ _ ↦ Recorded.ofExcept (.ok (.infeasible ⟨[⟨⟨0⟩, .zero 1⟩]⟩))
    interpolate := fun _ _ _ _ ↦ Recorded.ofExcept (.ok (.binary 0 (.avoid (Zone.zero 1)))) }

/-- The careless plan finds the urgent turnstile safe in its second iteration, which it is. -/
theorem isSafe_turnstile : (AutomatonDraft.turnstileAutomaton true).IsSafe := by
  have hsafe : ((⟨carelessPlan, some 2, none⟩ : Verification).verify
      (AutomatonDraft.turnstileAutomaton true) (.uniform .empty) 2).run.run (.start false) =
        (.ok (.finished (.safe 2 3)), .start false) :=
    Prod.ext (by decide +kernel) (by decide +kernel)
  exact isSafe_of_verify (AutomatonDraft.build_turnstile true) (by decide)
    (fun _ _ _ _ ↦ rfl) hsafe

/-- If a run that replays paths by exact zones reports a violation, its trace shows an error. -/
theorem violates_of_verify {draft : AutomatonDraft} {automaton : Automaton}
    (hbuild : draft.build = .ok automaton) (hresets : automaton.ResetsNonNegative)
    {verification : Verification} (hplan : verification.plan.SplitsExactly)
    (hreplay : verification.plan.ChecksExactly)
    {precisions : PrecisionTable Precision} {fuel iterations : Nat} {trace : Trace}
    {before after : Journal}
    (hviolated : (verification.verify automaton precisions fuel).run.run before =
      (.ok (.finished (.violated trace iterations)), after)) : automaton.Violates trace := by
  have hwell := AutomatonDraft.wellFormed_of_build hbuild
  have hholds := verify_holds hwell hresets hplan automaton.Violates ?_ precisions fuel before
  · exact hholds.result hviolated
  · intro call graph path journal hfaithful herror
    rw [hreplay call graph path]
    obtain rfl := hfaithful.automaton_eq
    have hverdict := AbstractGraph.replay_yields tolerant_true hfaithful.exact
      (hwell.tolerated_true hresets) herror
    refine Delivers.ofFault (hverdict.mono ?_) fun _ _ ↦ trivial
    rintro _ ⟨zones, hjudges⟩ trace rfl
    exact hjudges.violates hfaithful.exact herror

/-- A turnstile that can be waited for is in use too long, three time units after the start. -/
theorem violates_turnstile : (AutomatonDraft.turnstileAutomaton false).Violates
    ⟨[⟨⟨0⟩, ⟨[0]⟩⟩, ⟨⟨1⟩, ⟨[3]⟩⟩]⟩ := by
  have hviolated : ((⟨.exact .sequence .backward, none, none⟩ : Verification).verify
      (AutomatonDraft.turnstileAutomaton false) (.uniform .empty) 1).run.run (.start false) =
        (.ok (.finished (.violated ⟨[⟨⟨0⟩, ⟨[0]⟩⟩, ⟨⟨1⟩, ⟨[3]⟩⟩]⟩ 1)), .start false) :=
    Prod.ext (by decide +kernel) (by decide +kernel)
  exact violates_of_verify (AutomatonDraft.build_turnstile false) (by decide)
    (fun _ _ _ _ ↦ rfl) (fun _ _ _ ↦ rfl) hviolated

end TimedSafety.Verification
