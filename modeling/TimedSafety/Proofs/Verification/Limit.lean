import TimedSafety.Proofs.Verification.Verdicts

/-!
The limit of iterations. A run is a chain of iterations that each refine the graph
(`Verification.Refines`), followed by one with which it ends, and which run that is does not depend
on the fuel (`Verification.returns_iff`). An iteration knows of the limit only when it has been
reached. So runs under different limits pass through the same graphs for as long as both go on, and
a run that ends before its limit ends in the same way under every higher one
(`Verification.limit_truncates`).
-/

set_option autoImplicit false

namespace TimedSafety

/-! ### What an iteration counts and whether it stops the run -/

/-- The number of iterations that an outcome reports. -/
def Outcome.iterations? : Outcome → Option Nat
  | safe iterations _ => some iterations
  | violated _ iterations => some iterations
  | cancelled => none

/-- The number of iterations, where one is given, is this one. -/
def Standing.Counts (iterations : Nat) : Standing → Prop
  | finished outcome => ∀ reported, outcome.iterations? = some reported → reported = iterations
  | underway _ reported => reported = iterations

/-- The failure is not that a limit of iterations was reached. -/
def Failure.Unlimited (failure : Failure VerificationError) : Prop :=
  ∀ limit, failure ≠ .reported (.iterationLimit limit)

namespace Plan

/-- No phase of the plan asks the run to stop. -/
structure NeverStops (plan : Plan) : Prop where
  check : ∀ call graph path journal, journal.stopped = false →
    ((plan.check call graph path).run.run journal).2.stopped = false
  interpolate : ∀ call graph path trace journal, journal.stopped = false →
    ((plan.interpolate call graph path trace).run.run journal).2.stopped = false
  split : ∀ call graph path interpolant journal, journal.stopped = false →
    ((plan.split call graph path interpolant).run.run journal).2.stopped = false

/-- A phase reports errors of its own only, and leaves the run going if it never stops it. -/
theorem phase_delivers {α : Type} (phase : Recorded SolverError α) {never : Prop}
    {journal : Journal}
    (hphase : never → journal.stopped = false → (phase.run.run journal).2.stopped = false) :
    Delivers Failure.Unlimited (phase.mapError VerificationError.solver) journal fun _ after ↦
      never → journal.stopped = false → after.stopped = false := by
  refine Delivers.mapError (Delivers.of_forall ?_ ?_)
  · rintro (error | fault) limit hlimit <;> cases hlimit
  · intro value after hrun
    rwa [hrun] at hphase

theorem refine_unlimited (plan : Plan) (style : Option DrawingStyle) (call : Nat)
    (graph : AbstractGraph) (path : List StateId) (trace : Trace) (journal : Journal) :
    Delivers Failure.Unlimited (plan.refine style call graph path trace) journal fun _ after ↦
      plan.NeverStops → journal.stopped = false → after.stopped = false := by
  unfold refine
  by_cases hmisfit : trace.length = 0 ∨ path.length < trace.length
  · rw [if_pos hmisfit]
    exact Delivers.throw fun _ ↦ nofun
  rw [if_neg hmisfit]
  refine (phase_delivers _ fun hplan : plan.NeverStops ↦ hplan.interpolate _ _ _ _ _).bind
    fun interpolant seen hseen ↦ ?_
  refine (observeInterpolant_delivers (fun _ _ _ ↦ nofun) style (.any _) seen).bind
    fun _ shown hshown ↦ ?_
  have hshown : plan.NeverStops → journal.stopped = false → shown.stopped = false :=
    fun hplan hjournal ↦ hshown.trans (hseen hplan hjournal)
  refine Delivers.unlessStopped (fun _ ↦ hshown) ?_
  refine (phase_delivers _ fun hplan : plan.NeverStops ↦ hplan.split _ _ _ _ _).bind ?_
  rintro ⟨split, first⟩ cut hcut
  have hcut : plan.NeverStops → journal.stopped = false → cut.stopped = false :=
    fun hplan hjournal ↦ hcut hplan (hshown hplan hjournal)
  refine Delivers.unlessStopped (fun _ ↦ hcut) ?_
  dsimp only
  by_cases hgrown : split.states.length ≤ graph.states.length
  · rw [if_pos hgrown]
    exact Delivers.throw fun _ ↦ nofun
  rw [if_neg hgrown]
  refine (observeGraph_delivers (fun _ _ _ ↦ nofun) style (fun _ ↦ .any _) cut).bind
    fun _ final hfinal ↦ Delivers.pure ?_
  exact fun hplan hjournal ↦ hfinal.trans (hcut hplan hjournal)

end Plan

namespace Verification

/-- The verification under another limit. -/
def withLimit (verification : Verification) (limit : Option Nat) : Verification :=
  { verification with limit }

variable {verification : Verification} {limit higher : Option Nat}

theorem exhausted_eq_none_iff {iterations : Nat} :
    verification.exhausted iterations = none ↔
      ∀ bound, verification.limit = some bound → iterations < bound := by
  simp [exhausted, Option.filter_eq_none_iff]

/-- One iteration is counted, and fails for the limit only if this was reached. -/
theorem iterate_counts (verification : Verification) (graph : AbstractGraph) (iterations : Nat)
    (journal : Journal) :
    Delivers (fun failure ↦ verification.exhausted iterations = none → failure.Unlimited)
      (verification.iterate graph iterations) journal fun standing after ↦
        standing.Counts (iterations + 1) ∧
          (verification.plan.NeverStops → journal.stopped = false → after.stopped = false) := by
  refine Delivers.unlessStopped (fun _ ↦ ⟨nofun, fun _ hjournal ↦ hjournal⟩) ?_
  cases hexhausted : verification.exhausted iterations with
  | some limit => exact Delivers.throw nofun
  | none =>
    refine Delivers.weaken ?_ fun _ hunlimited _ ↦ hunlimited
    refine Delivers.ofFault_bind (Yields.any _) (fun _ _ _ ↦ nofun) ?_
    rintro ⟨searched, found⟩ -
    cases found with
    | none => exact Delivers.pure ⟨fun _ hreported ↦ (Option.some.inj hreported).symm,
        fun _ hjournal ↦ hjournal⟩
    | some path =>
      refine (Plan.phase_delivers _ fun hplan : verification.plan.NeverStops ↦
        hplan.check _ _ _ _).bind fun verdict checked hchecked ↦ ?_
      cases verdict with
      | feasible trace =>
        exact Delivers.pure ⟨fun _ hreported ↦ (Option.some.inj hreported).symm, hchecked⟩
      | infeasible trace =>
        refine (verification.plan.refine_unlimited _ _ _ _ _ checked).bind
          fun result after hafter ↦ ?_
        have hafter : verification.plan.NeverStops → journal.stopped = false →
            after.stopped = false := fun hplan hjournal ↦ hafter hplan (hchecked hplan hjournal)
        cases result with
        | none => exact Delivers.pure ⟨nofun, hafter⟩
        | some refined => exact Delivers.pure ⟨rfl, hafter⟩

/-- Where the limit has not been reached, it plays no part. -/
theorem iterate_withLimit {iterations : Nat}
    (hlimit : (verification.withLimit limit).exhausted iterations = none)
    (hhigher : (verification.withLimit higher).exhausted iterations = none)
    (graph : AbstractGraph) : (verification.withLimit limit).iterate graph iterations =
      (verification.withLimit higher).iterate graph iterations := by
  unfold iterate
  rw [hlimit, hhigher]
  rfl

/-- An iteration at the limit fails for it, unless the run was asked to stop. -/
theorem iterate_exhausted {graph : AbstractGraph} {iterations bound : Nat} {journal : Journal}
    (hjournal : journal.stopped = false)
    (hexhausted : verification.exhausted iterations = some bound) :
    (verification.iterate graph iterations).run.run journal =
      (.error (.reported (.iterationLimit bound)), journal) := by
  have hread : (Recorded.isStopped : Recorded VerificationError Bool).run.run journal =
      (.ok false, journal) := by
    rw [← hjournal]
    rfl
  unfold iterate
  rw [Recorded.run_bind, hread]
  simp only [Bool.false_eq_true, if_false, hexhausted]
  rfl

/-- A refinement is made before the limit is reached only. -/
theorem exhausted_of_iterate {graph refined : AbstractGraph} {iterations next : Nat}
    {journal after : Journal} (hiterate : (verification.iterate graph iterations).run.run journal =
      (.ok (.underway refined next), after)) : verification.exhausted iterations = none := by
  have hdelivers : Delivers (fun _ ↦ True) (verification.iterate graph iterations) journal
      fun standing _ ↦ ∀ refined next, standing = .underway refined next →
        verification.exhausted iterations = none := by
    refine Delivers.unlessStopped (fun _ _ _ ↦ nofun) ?_
    cases verification.exhausted iterations with
    | some bound => exact Delivers.throw trivial
    | none => exact (Delivers.any fun _ ↦ trivial).mono fun _ _ _ _ _ _ ↦ rfl
  exact hdelivers.result hiterate refined next rfl

/-! ### Runs as chains of refinements -/

/-- Where a run stands between two iterations. -/
structure Position where
  graph : AbstractGraph
  iterations : Nat
  journal : Journal

/-- What a run ends with: its outcome or failure, and the journal it leaves behind. -/
structure Ending where
  result : Except (Failure VerificationError) Outcome
  journal : Journal

/-- The last result of a run with the ending. -/
def Ending.last (ending : Ending) : Except (Failure VerificationError) Standing × Journal :=
  (ending.result.map .finished, ending.journal)

/-- The result of the iteration that begins at a position. -/
def advance (verification : Verification) (position : Position) :
    Except (Failure VerificationError) Standing × Journal :=
  (verification.iterate position.graph position.iterations).run.run position.journal

/-- The iterations from one position to another each end in a refined graph. -/
inductive Refines (verification : Verification) :
    Position → List AbstractGraph → Position → Prop
  | refl (position : Position) : Refines verification position [] position
  | step {position final : Position} {refined : AbstractGraph} {after : Journal}
      {refinements : List AbstractGraph}
      (hadvance : verification.advance position =
        (.ok (.underway refined (position.iterations + 1)), after))
      (hrest : Refines verification ⟨refined, position.iterations + 1, after⟩ refinements final) :
      Refines verification position (refined :: refinements) final

/-- After these refinements the run comes to its end. -/
def Ends (verification : Verification) (position : Position) (refinements : List AbstractGraph)
    (ending : Ending) : Prop :=
  ∃ final, verification.Refines position refinements final ∧
    verification.advance final = ending.last

/-- The run returns with the ending; how much fuel it needs for that is left open. -/
def Returns (verification : Verification) (automaton : Automaton)
    (precisions : PrecisionTable Precision) (journal : Journal) (ending : Ending) : Prop :=
  ∃ fuel, (verification.verify automaton precisions fuel).run.run journal = ending.last

theorem Ending.last_injective : Function.Injective Ending.last := by
  rintro ⟨result, journal⟩ ⟨other, after⟩ hlast
  obtain ⟨hresult, rfl⟩ := Prod.mk.inj hlast
  cases result <;> cases other <;> cases hresult <;> rfl

theorem Ending.last_ne_underway (ending : Ending) (graph : AbstractGraph) (iterations : Nat)
    (journal : Journal) : ending.last ≠ (.ok (.underway graph iterations), journal) := by
  rcases ending with ⟨_ | _, _⟩ <;> rintro ⟨⟩

/-- An iteration is the last one, or it refines the graph. -/
theorem advance_cases (verification : Verification) (position : Position) :
    (∃ ending, verification.advance position = Ending.last ending) ∨
      ∃ refined after, verification.advance position =
        (.ok (.underway refined (position.iterations + 1)), after) := by
  have hcounts := verification.iterate_counts position.graph position.iterations position.journal
  rcases hresult : verification.advance position with ⟨failure | outcome | ⟨refined, next⟩, after⟩
  · exact .inl ⟨⟨.error failure, after⟩, rfl⟩
  · exact .inl ⟨⟨.ok outcome, after⟩, rfl⟩
  · obtain rfl := (hcounts.result hresult).1
    exact .inr ⟨refined, after, rfl⟩

theorem Refines.iterations_eq {position final : Position} {refinements : List AbstractGraph}
    (hrefines : verification.Refines position refinements final) :
    final.iterations = position.iterations + refinements.length := by
  induction hrefines with
  | refl position => rfl
  | step hadvance hrest ih =>
    rw [ih, List.length_cons]
    exact Nat.add_right_comm _ _ _

theorem Refines.unstopped {position final : Position} {refinements : List AbstractGraph}
    (hrefines : verification.Refines position refinements final)
    (hplan : verification.plan.NeverStops) (hposition : position.journal.stopped = false) :
    final.journal.stopped = false := by
  induction hrefines with
  | refl position => exact hposition
  | step hadvance hrest ih =>
    exact ih (((verification.iterate_counts _ _ _).result hadvance).2 hplan hposition)

/-- Refinements are made before the limit is reached. -/
theorem Refines.le_limit {position final : Position} {refinements : List AbstractGraph}
    {bound : Nat}
    (hrefines : (verification.withLimit (some bound)).Refines position refinements final)
    (hposition : position.iterations ≤ bound) : final.iterations ≤ bound := by
  induction hrefines with
  | refl position => exact hposition
  | step hadvance hrest ih =>
    exact ih (exhausted_eq_none_iff.mp (exhausted_of_iterate hadvance) bound rfl)

/-- A higher limit allows the same refinements. -/
theorem Refines.withLimit {position final : Position} {refinements : List AbstractGraph}
    (hrefines : (verification.withLimit limit).Refines position refinements final)
    (hhigher : ∀ bound, higher = some bound → final.iterations ≤ bound) :
    (verification.withLimit higher).Refines position refinements final := by
  induction hrefines with
  | refl position => exact .refl position
  | @step position final refined after refinements hadvance hrest ih =>
    have hbefore : position.iterations < final.iterations := by
      rw [hrest.iterations_eq]
      exact Nat.lt_of_lt_of_le (Nat.lt_succ_self _) (Nat.le_add_right _ _)
    have hopen : (verification.withLimit higher).exhausted position.iterations = none :=
      exhausted_eq_none_iff.mpr fun bound hbound ↦
        Nat.lt_of_lt_of_le hbefore (hhigher bound hbound)
    refine .step ?_ (ih hhigher)
    rw [← hadvance, advance, advance, iterate_withLimit (exhausted_of_iterate hadvance) hopen]

/-- A run that comes to its end does so in one way. -/
theorem Ends.unique {position : Position} {refinements others : List AbstractGraph}
    {ending other : Ending} (hends : verification.Ends position refinements ending)
    (hother : verification.Ends position others other) : other = ending := by
  obtain ⟨final, hrefines, hlast⟩ := hends
  induction hrefines generalizing others with
  | refl position =>
    obtain ⟨_, _ | ⟨hadvance, hrest⟩, hlast'⟩ := hother
    · exact Ending.last_injective (hlast'.symm.trans hlast)
    · exact absurd (hlast.symm.trans hadvance) (ending.last_ne_underway _ _ _)
  | step hadvance hrest ih =>
    obtain ⟨_, _ | ⟨hadvance', hrest'⟩, hlast'⟩ := hother
    · exact absurd (hlast'.symm.trans hadvance) (other.last_ne_underway _ _ _)
    · obtain ⟨hsame, rfl⟩ := Prod.mk.inj (hadvance.symm.trans hadvance')
      cases hsame
      exact ih ⟨_, hrest', hlast'⟩ hlast

theorem Ends.step {position : Position} {refined : AbstractGraph} {after : Journal}
    {refinements : List AbstractGraph} {ending : Ending}
    (hadvance : verification.advance position =
      (.ok (.underway refined (position.iterations + 1)), after))
    (hends : verification.Ends ⟨refined, position.iterations + 1, after⟩ refinements ending) :
    verification.Ends position (refined :: refinements) ending := by
  obtain ⟨final, hrefines, hlast⟩ := hends
  exact ⟨final, .step hadvance hrefines, hlast⟩

/-- A run under a limit comes to its end. -/
theorem exists_ends (verification : Verification) {bound : Nat}
    (hlimit : verification.limit = some bound) (position : Position) :
    ∃ refinements ending, verification.Ends position refinements ending := by
  induction hleft : bound - position.iterations using Nat.strongRecOn generalizing position with
  | ind left ih =>
    rcases verification.advance_cases position with ⟨ending, hlast⟩ | ⟨refined, after, hadvance⟩
    · exact ⟨[], ending, position, .refl position, hlast⟩
    · -- the refinement leaves one iteration less until the limit
      have hbefore : position.iterations < bound :=
        exhausted_eq_none_iff.mp (exhausted_of_iterate hadvance) bound hlimit
      obtain ⟨refinements, ending, hends⟩ := ih (bound - (position.iterations + 1)) (by omega)
        ⟨refined, position.iterations + 1, after⟩ rfl
      exact ⟨refined :: refinements, ending, hends.step hadvance⟩

theorem run_of_last {position : Position} {ending : Ending} (fuel : Nat)
    (hlast : verification.advance position = ending.last) :
    (verification.run (fuel + 1) position.graph position.iterations).run.run position.journal =
      ending.last := by
  rw [advance] at hlast
  rw [run, Recorded.run_bind, hlast]
  rcases ending with ⟨_ | _, _⟩ <;> rfl

theorem run_of_refined {position : Position} {refined : AbstractGraph} {after : Journal}
    (fuel : Nat) (hadvance : verification.advance position =
      (.ok (.underway refined (position.iterations + 1)), after)) :
    (verification.run (fuel + 1) position.graph position.iterations).run.run position.journal =
      (verification.run fuel refined (position.iterations + 1)).run.run after := by
  rw [advance] at hadvance
  rw [run, Recorded.run_bind, hadvance]

/-- With enough fuel, and only then, a run gets to its end. -/
theorem run_iff_ends {position : Position} {ending : Ending} :
    (∃ fuel, (verification.run fuel position.graph position.iterations).run.run position.journal =
      ending.last) ↔ ∃ refinements, verification.Ends position refinements ending := by
  constructor
  · rintro ⟨fuel, hrun⟩
    induction fuel generalizing position with
    | zero => exact absurd hrun.symm (ending.last_ne_underway _ _ _)
    | succ fuel ih =>
      rcases verification.advance_cases position with ⟨other, hlast⟩ | ⟨refined, after, hadvance⟩
      · rw [run_of_last fuel hlast] at hrun
        obtain rfl := Ending.last_injective hrun
        exact ⟨[], position, .refl position, hlast⟩
      · rw [run_of_refined fuel hadvance] at hrun
        obtain ⟨refinements, hends⟩ := @ih ⟨refined, position.iterations + 1, after⟩ hrun
        exact ⟨refined :: refinements, hends.step hadvance⟩
  · rintro ⟨refinements, final, hrefines, hlast⟩
    induction hrefines with
    | refl position => exact ⟨1, run_of_last 0 hlast⟩
    | step hadvance hrest ih =>
      obtain ⟨fuel, hrun⟩ := ih hlast
      exact ⟨fuel + 1, (run_of_refined fuel hadvance).trans hrun⟩

theorem returns_iff {automaton : Automaton} {precisions : PrecisionTable Precision}
    {graph : AbstractGraph} (hbuild : AbstractGraph.build automaton precisions = .ok graph)
    {journal : Journal} {ending : Ending} :
    verification.Returns automaton precisions journal ending ↔
      ∃ refinements, verification.Ends ⟨graph, 0, journal⟩ refinements ending := by
  rw [← run_iff_ends]
  unfold Returns verify
  rw [hbuild]
  rfl

/-- Where no graph can be built, a run ends at once. -/
theorem returns_iff_of_fault {automaton : Automaton} {precisions : PrecisionTable Precision}
    {fault : Fault} (hbuild : AbstractGraph.build automaton precisions = .error fault)
    {journal : Journal} {ending : Ending} :
    verification.Returns automaton precisions journal ending ↔
      ending = ⟨.error (.broken fault), journal⟩ := by
  have hrun : ∀ fuel, (verification.verify automaton precisions fuel).run.run journal =
      Ending.last ⟨.error (.broken fault), journal⟩ := by
    intro fuel
    unfold verify
    rw [hbuild]
    rfl
  unfold Returns
  simp only [hrun, exists_const]
  exact Ending.last_injective.eq_iff.trans eq_comm

/-! ### Runs under limits -/

/-- The last iteration does not fail for a limit that was not reached, and its outcome counts it. -/
theorem last_of_advance {position : Position} {ending : Ending}
    (hopen : verification.exhausted position.iterations = none)
    (hlast : verification.advance position = ending.last) :
    (∀ bound, ending.result ≠ .error (.reported (.iterationLimit bound))) ∧
      ∀ outcome iterations, ending.result = .ok outcome →
        outcome.iterations? = some iterations → iterations = position.iterations + 1 := by
  have hcounts := verification.iterate_counts position.graph position.iterations position.journal
  obtain ⟨failure | outcome, after⟩ := ending
  · refine ⟨?_, by rintro _ _ ⟨⟩⟩
    rintro bound ⟨⟩
    exact hcounts.failure hlast hopen bound rfl
  · refine ⟨by rintro _ ⟨⟩, ?_⟩
    rintro _ iterations ⟨⟩ hreported
    exact (hcounts.result hlast).1 iterations hreported

/-- Under a limit that it does not reach, a run comes to the same end. -/
theorem Ends.withLimit {position : Position} {refinements : List AbstractGraph} {ending : Ending}
    (hends : (verification.withLimit limit).Ends position refinements ending)
    (hlimit : ∀ bound, limit = some bound → position.iterations + refinements.length < bound)
    (hhigher : ∀ bound, higher = some bound → position.iterations + refinements.length < bound) :
    (verification.withLimit higher).Ends position refinements ending := by
  obtain ⟨final, hrefines, hlast⟩ := hends
  rw [← hrefines.iterations_eq] at hlimit hhigher
  refine ⟨final, hrefines.withLimit fun bound hbound ↦ (hhigher bound hbound).le, ?_⟩
  rw [← hlast, advance, advance, iterate_withLimit (exhausted_eq_none_iff.mpr hlimit)
    (exhausted_eq_none_iff.mpr hhigher)]

/-- A run that makes all the refinements that its limit allows ends for the limit. -/
theorem Refines.ends {bound : Nat} {position final : Position}
    {refinements : List AbstractGraph}
    (hrefines : (verification.withLimit (some bound)).Refines position refinements final)
    (hplan : verification.plan.NeverStops) (hposition : position.journal.stopped = false)
    (hreached : final.iterations = bound) :
    (verification.withLimit (some bound)).Ends position refinements
      ⟨.error (.reported (.iterationLimit bound)), final.journal⟩ := by
  refine ⟨final, hrefines, iterate_exhausted (hrefines.unstopped hplan hposition) ?_⟩
  simp [exhausted, Verification.withLimit, hreached]

section Truncation

variable {bound : Nat} {graph : AbstractGraph} {journal : Journal}
variable {refinements : List AbstractGraph} {ending : Ending}

/-- A run under a limit ends before it, and then not for it, or makes all the refinements that it
allows. -/
theorem Ends.limit_cases
    (hends : (verification.withLimit (some bound)).Ends ⟨graph, 0, journal⟩ refinements ending)
    (hplan : verification.plan.NeverStops) (hjournal : journal.stopped = false) :
    (refinements.length < bound ∧ ending.result ≠ .error (.reported (.iterationLimit bound)) ∧
        ∀ outcome iterations, ending.result = .ok outcome →
          outcome.iterations? = some iterations → iterations = refinements.length + 1) ∨
      (refinements.length = bound ∧
        ending.result = .error (.reported (.iterationLimit bound))) := by
  obtain ⟨final, hrefines, hlast⟩ := hends
  have hcount : final.iterations = refinements.length := by
    rw [hrefines.iterations_eq, Nat.zero_add]
  rcases Nat.lt_or_eq_of_le (hrefines.le_limit (Nat.zero_le bound)) with hbefore | hreached
  · have hopen : (verification.withLimit (some bound)).exhausted final.iterations = none :=
      exhausted_eq_none_iff.mpr fun other hother ↦ Option.some.inj hother ▸ hbefore
    obtain ⟨hunlimited, hcounts⟩ := last_of_advance hopen hlast
    rw [hcount] at hbefore hcounts
    exact .inl ⟨hbefore, hunlimited bound, hcounts⟩
  · have hother := hrefines.ends hplan hjournal hreached
    rw [hother.unique ⟨final, hrefines, hlast⟩]
    exact .inr ⟨hcount ▸ hreached, rfl⟩

/-- A run that does not end for its limit comes to the same end under every higher one. -/
theorem Ends.raise
    (hends : (verification.withLimit (some bound)).Ends ⟨graph, 0, journal⟩ refinements ending)
    (hplan : verification.plan.NeverStops) (hjournal : journal.stopped = false)
    (hresult : ending.result ≠ .error (.reported (.iterationLimit bound)))
    (hhigher : ∀ raised, higher = some raised → bound ≤ raised) :
    (verification.withLimit higher).Ends ⟨graph, 0, journal⟩ refinements ending := by
  rcases hends.limit_cases hplan hjournal with ⟨hbefore, -⟩ | ⟨-, hlimit⟩
  · have hopen : ∀ raised, bound ≤ raised → 0 + refinements.length < raised := by omega
    exact hends.withLimit (fun raised hbound ↦ hopen raised (Option.some.inj hbound).le)
      fun raised hbound ↦ hopen raised (hhigher raised hbound)
  · exact absurd hlimit hresult

theorem Ends.iterations_le {outcome : Outcome} {iterations : Nat}
    (hends : (verification.withLimit (some bound)).Ends ⟨graph, 0, journal⟩ refinements ending)
    (hplan : verification.plan.NeverStops) (hjournal : journal.stopped = false)
    (hresult : ending.result = .ok outcome) (hreported : outcome.iterations? = some iterations) :
    1 ≤ iterations ∧ iterations ≤ bound := by
  rcases hends.limit_cases hplan hjournal with ⟨hbefore, -, hcounts⟩ | ⟨-, hlimit⟩
  · rw [hcounts outcome iterations hresult hreported]
    exact ⟨Nat.le_add_left _ _, hbefore⟩
  · rw [hlimit] at hresult
    cases hresult

/-- A run ends for its limit just if all the iterations that this allows refine the graph. -/
theorem Ends.result_eq_limit_iff
    (hends : (verification.withLimit (some bound)).Ends ⟨graph, 0, journal⟩ refinements ending)
    (hplan : verification.plan.NeverStops) (hjournal : journal.stopped = false) :
    ending.result = .error (.reported (.iterationLimit bound)) ↔
      ∃ others final, others.length = bound ∧
        (verification.withLimit (some bound)).Refines ⟨graph, 0, journal⟩ others final := by
  constructor
  · intro hresult
    rcases hends.limit_cases hplan hjournal with ⟨-, hother, -⟩ | ⟨hlength, -⟩
    · exact absurd hresult hother
    · obtain ⟨final, hrefines, -⟩ := hends
      exact ⟨refinements, final, hlength, hrefines⟩
  · rintro ⟨others, final, hlength, hrefines⟩
    have hreached : final.iterations = bound := by
      rw [hrefines.iterations_eq, Nat.zero_add, hlength]
    rw [← hends.unique (hrefines.ends hplan hjournal hreached)]

/-- Under a higher limit a run makes the same refinements. -/
theorem Refines.raise {final : Position}
    (hrefines : (verification.withLimit (some bound)).Refines ⟨graph, 0, journal⟩ refinements final)
    (hlength : refinements.length = bound)
    (hhigher : ∀ raised, higher = some raised → bound ≤ raised) :
    (verification.withLimit higher).Refines ⟨graph, 0, journal⟩ refinements final := by
  refine hrefines.withLimit fun raised hbound ↦ ?_
  rw [hrefines.iterations_eq, Nat.zero_add, hlength]
  exact hhigher raised hbound

/-- A run that comes to an end returns with this ending and no other. -/
theorem Ends.returns_iff {automaton : Automaton} {precisions : PrecisionTable Precision}
    (hends : verification.Ends ⟨graph, 0, journal⟩ refinements ending)
    (hbuild : AbstractGraph.build automaton precisions = .ok graph) (other : Ending) :
    verification.Returns automaton precisions journal other ↔ other = ending := by
  rw [Verification.returns_iff hbuild]
  constructor
  · rintro ⟨others, hother⟩
    exact hends.unique hother
  · rintro rfl
    exact ⟨refinements, hends⟩

end Truncation

/-- The limit of iterations only cuts a run short. If no phase asks the run to stop, a run under a
limit returns with just one ending; unless that is a failure for the limit, runs under higher limits
and without one return with the same ending. An outcome counts at least one iteration and no more
than the limit. The run fails for the limit just if it makes as many refinements as the limit
allows, and then runs under higher limits make the same ones. -/
theorem limit_truncates {verification : Verification} (hplan : verification.plan.NeverStops)
    (automaton : Automaton) (precisions : PrecisionTable Precision) {journal : Journal}
    (hjournal : journal.stopped = false) (bound : Nat) :
    ∃ ending : Ending,
      (∀ other, (verification.withLimit (some bound)).Returns automaton precisions journal other ↔
        other = ending) ∧
      (ending.result ≠ .error (.reported (.iterationLimit bound)) →
        ∀ higher, (∀ raised, higher = some raised → bound ≤ raised) → ∀ other,
          (verification.withLimit higher).Returns automaton precisions journal other ↔
            other = ending) ∧
      (∀ outcome iterations, ending.result = .ok outcome →
        outcome.iterations? = some iterations → 1 ≤ iterations ∧ iterations ≤ bound) ∧
      (ending.result = .error (.reported (.iterationLimit bound)) ↔
        ∃ graph refinements final, AbstractGraph.build automaton precisions = .ok graph ∧
          refinements.length = bound ∧ (verification.withLimit (some bound)).Refines
            ⟨graph, 0, journal⟩ refinements final) ∧
      ∀ graph refinements final, refinements.length = bound →
        (verification.withLimit (some bound)).Refines ⟨graph, 0, journal⟩ refinements final →
        ∀ higher, (∀ raised, higher = some raised → bound ≤ raised) →
          (verification.withLimit higher).Refines ⟨graph, 0, journal⟩ refinements final := by
  cases hbuild : AbstractGraph.build automaton precisions with
  | error fault =>
    refine ⟨⟨.error (.broken fault), journal⟩, fun other ↦ returns_iff_of_fault hbuild,
      fun _ higher _ other ↦ returns_iff_of_fault hbuild, by rintro _ _ ⟨⟩, ?_,
      fun _ _ _ hlength hrefines _ ↦ hrefines.raise hlength⟩
    exact iff_of_false (by rintro ⟨⟩) (by rintro ⟨_, _, _, ⟨⟩, _⟩)
  | ok graph =>
    obtain ⟨refinements, ending, hends⟩ :=
      exists_ends (verification.withLimit (some bound)) rfl ⟨graph, 0, journal⟩
    refine ⟨ending, hends.returns_iff hbuild, ?_, ?_, ?_,
      fun _ _ _ hlength hrefines _ ↦ hrefines.raise hlength⟩
    · intro hresult higher hhigher
      exact (hends.raise hplan hjournal hresult hhigher).returns_iff hbuild
    · intro outcome iterations hresult hreported
      exact hends.iterations_le hplan hjournal hresult hreported
    · simp only [Except.ok.injEq, exists_eq_left', hends.result_eq_limit_iff hplan hjournal,
        exists_and_left]

theorem carelessPlan_neverStops : carelessPlan.NeverStops :=
  ⟨fun _ _ _ _ hjournal ↦ hjournal, fun _ _ _ _ _ hjournal ↦ hjournal,
    fun _ _ _ _ _ hjournal ↦ hjournal⟩

/-- On the urgent turnstile the careless plan refines once, for which a limit of one iteration
leaves no time; two are as good as any number. -/
theorem limit_truncates_turnstile :
    (∃ graph refinements final,
      AbstractGraph.build (AutomatonDraft.turnstileAutomaton true) (.uniform .empty) = .ok graph ∧
        refinements.length = 1 ∧ (⟨carelessPlan, some 1, none⟩ : Verification).Refines
          ⟨graph, 0, .start false⟩ refinements final) ∧
    (⟨carelessPlan, none, none⟩ : Verification).Returns (AutomatonDraft.turnstileAutomaton true)
      (.uniform .empty) (.start false) ⟨.ok (.safe 2 3), .start false⟩ := by
  have hshort : ((⟨carelessPlan, some 1, none⟩ : Verification).verify
      (AutomatonDraft.turnstileAutomaton true) (.uniform .empty) 2).run.run (.start false) =
        (.error (.reported (.iterationLimit 1)), .start false) :=
    Prod.ext (by decide +kernel) (by decide +kernel)
  have hlong : ((⟨carelessPlan, some 2, none⟩ : Verification).verify
      (AutomatonDraft.turnstileAutomaton true) (.uniform .empty) 2).run.run (.start false) =
        (.ok (.finished (.safe 2 3)), .start false) :=
    Prod.ext (by decide +kernel) (by decide +kernel)
  have hlimits := fun bound ↦ limit_truncates
    (show (⟨carelessPlan, none, none⟩ : Verification).plan.NeverStops from carelessPlan_neverStops)
    (AutomatonDraft.turnstileAutomaton true) (.uniform .empty)
    (show (Journal.start false).stopped = false from rfl) bound
  constructor
  · obtain ⟨ending, hreturns, -, -, hlimit, -⟩ := hlimits 1
    obtain rfl := (hreturns ⟨.error (.reported (.iterationLimit 1)), .start false⟩).mp ⟨2, hshort⟩
    exact hlimit.mp rfl
  · obtain ⟨ending, hreturns, hsame, -⟩ := hlimits 2
    obtain rfl := (hreturns ⟨.ok (.safe 2 3), .start false⟩).mp ⟨2, hlong⟩
    exact (hsame (by rintro ⟨⟩) none (by rintro _ ⟨⟩) _).mpr rfl

end Verification

end TimedSafety
