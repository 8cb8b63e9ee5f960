import TimedSafety.Proofs.Automaton.Level
import TimedSafety.Proofs.Graph.Evolution
import TimedSafety.Proofs.Graph.Replay
import TimedSafety.Proofs.Graph.Steps

/-!
What the list of transitions keeps beyond exactness. It stays strictly sorted, so that the first
edge that is found between two states is the smallest one (`Charted.edgeBetween_eq_some_iff`). And a
transition is only added after the image along its edge has been computed, which checks the
constants of its commands; following a transition later can therefore only overflow
(`Charted.movesTolerated`).
-/

set_option autoImplicit false

namespace TimedSafety

/-! ### Sorted transitions -/

namespace Transition

/-- The first transition comes before the second, by source, edge and target. -/
def Precedes (left right : Transition) : Prop := order left right = .lt

theorem precedes_iff {left right : Transition} : left.Precedes right ↔
    left.source.number < right.source.number ∨ left.source.number = right.source.number ∧
      (left.edge.index < right.edge.index ∨ left.edge.index = right.edge.index ∧
        left.target.number < right.target.number) := by
  simp only [Precedes, order, Ordering.then_eq_lt, Nat.compare_eq_lt, Nat.compare_eq_eq]

theorem order_eq_gt_iff {left right : Transition} :
    order left right = .gt ↔ right.Precedes left := by
  rw [precedes_iff]
  simp only [order, Ordering.then_eq_gt, Nat.compare_eq_gt, Nat.compare_eq_eq]
  omega

theorem Precedes.trans {first second third : Transition} (hfirst : first.Precedes second)
    (hsecond : second.Precedes third) : first.Precedes third := by
  rw [precedes_iff] at *
  omega

/-- Inserting keeps transitions sorted. -/
theorem insertSorted_pairwise (transition : Transition) {transitions : List Transition}
    (hsorted : transitions.Pairwise Precedes) :
    (insertSorted transition transitions).Pairwise Precedes := by
  induction transitions with
  | nil => simp [insertSorted]
  | cons head rest ih =>
    obtain ⟨hhead, hrest⟩ := List.pairwise_cons.mp hsorted
    unfold insertSorted
    cases horder : order transition head with
    | lt =>
      refine List.pairwise_cons.mpr ⟨?_, hsorted⟩
      exact List.forall_mem_cons.mpr ⟨horder, fun other hother ↦
        Precedes.trans horder (hhead other hother)⟩
    | eq => exact hsorted
    | gt =>
      refine List.pairwise_cons.mpr ⟨fun other hother ↦ ?_, ih hrest⟩
      rcases mem_insertSorted_iff.mp hother with rfl | hmem
      · exact order_eq_gt_iff.mp horder
      · exact hhead other hmem

end Transition

namespace AbstractGraph

variable {automaton : Automaton} {graph after : AbstractGraph}

/-! ### Changes keep the chart -/

/-- The transitions are sorted, and the constants along each have been checked. -/
structure Charted (automaton : Automaton) (graph : AbstractGraph) : Prop where
  automaton_eq : graph.automaton = automaton
  sorted : graph.transitions.Pairwise Transition.Precedes
  inRange : ∀ transition ∈ graph.transitions, ∀ move,
    automaton.move transition.edge = .ok move → move.InRange

namespace Charted

/-- Only the automaton and the transitions matter. -/
theorem congr (hcharted : graph.Charted automaton) (hautomaton : after.automaton = graph.automaton)
    (htransitions : after.transitions = graph.transitions) : after.Charted automaton :=
  ⟨hautomaton.trans hcharted.automaton_eq, htransitions ▸ hcharted.sorted,
    htransitions ▸ hcharted.inRange⟩

theorem alike (hcharted : graph.Charted automaton) (halike : graph.Alike after) :
    after.Charted automaton :=
  hcharted.congr halike.automaton_eq halike.transitions_eq

theorem withPrecisions (hcharted : graph.Charted automaton)
    (precisions : PrecisionTable Precision) :
    Charted automaton { graph with precisions } := hcharted.congr rfl rfl

theorem connect (hcharted : graph.Charted automaton) (edge : EdgeId)
    (source target : AbstractState) :
    Yields (fun _ ↦ True) (graph.connect edge source target) (Charted automaton) := by
  obtain rfl := hcharted.automaton_eq
  unfold AbstractGraph.connect
  cases hmove : graph.automaton.move edge with
  | error fault => trivial
  | ok move =>
    refine (move.post_inRange source.zone).bind fun image hinRange ↦ ?_
    refine (Yields.any _).bind fun reached _ ↦ ?_
    cases reached with
    | false => exact hcharted
    | true =>
      refine ⟨rfl, Transition.insertSorted_pairwise _ hcharted.sorted, ?_⟩
      intro transition htransition other hother
      rcases Transition.mem_insertSorted_iff.mp htransition with rfl | hmem
      · obtain rfl : move = other := Except.ok.inj (hmove.symm.trans hother)
        exact hinRange
      · exact hcharted.inRange transition hmem other hother

theorem connectAll (hcharted : graph.Charted automaton) (edge : EdgeId)
    (sources targets : List AbstractState) :
    Yields (fun _ ↦ True) (graph.connectAll edge sources targets) (Charted automaton) :=
  Yields.foldlM_const hcharted fun source _ _ houter ↦
    Yields.foldlM_const houter fun target _ _ hinner ↦ hinner.connect edge source target

theorem addStates (hcharted : graph.Charted automaton) (location : Location)
    (zones : List Zone) :
    Yields (fun _ ↦ True) (graph.addStates location zones) fun added ↦
      added.1.Charted automaton :=
  (graph.addStates_appends location zones).mono fun _ happends ↦
    hcharted.congr happends.automaton_eq happends.transitions_eq

theorem splitState (hcharted : graph.Charted automaton) (id : StateId) (zones : List Zone) :
    Yields (fun _ ↦ True) (graph.splitState id zones) fun split ↦ split.1.Charted automaton := by
  cases hold : graph.state? id with
  | none =>
    rw [AbstractGraph.splitState, hold]
    trivial
  | some old =>
    have hwithout : (graph.without id).Charted automaton := by
      have hsublist : (graph.without id).transitions.Sublist graph.transitions := by
        rw [without, List.partition_eq_filter_filter]
        exact List.filter_sublist
      exact ⟨hcharted.automaton_eq, hcharted.sorted.sublist hsublist,
        fun transition hmem ↦ hcharted.inRange transition (hsublist.subset hmem)⟩
    rw [splitState_eq hold]
    refine (hwithout.addStates old.location zones).bind fun added hadded ↦ ?_
    refine (Yields.foldlM_const hadded fun transition _ current hcurrent ↦ ?_).bind
      fun _ hconnected ↦ hconnected
    exact hcurrent.connectAll _ _ _

theorem splitAlong (hcharted : graph.Charted automaton) (path : List StateId)
    (interpolant : Interpolant) :
    Yields (fun _ ↦ True) (graph.splitAlong path interpolant) fun split ↦
      split.1.Charted automaton := by
  refine .of_forall fun split hsplit ↦ ?_
  have hstep : ∀ (progress next : SplitProgress) (position : Nat × Formula),
      progress.graph.Charted automaton → SplitStep path progress position next →
        next.graph.Charted automaton := by
    rintro progress _ position hprogress (_ | ⟨-, -, -, -, -, -, -, hcut⟩)
    · exact hprogress
    · exact ((hprogress.withPrecisions _).splitState _ _).result hcut
  obtain ⟨progress, hprogress, hgraph, -⟩ := splitAlong_induction
    (fun _ (progress : SplitProgress) ↦ progress.graph.Charted automaton) hcharted
    (fun _ position _ _ progress next ↦ hstep progress next position) hsplit
  rwa [← hgraph]

end Charted

theorem charted_build {precisions : PrecisionTable Precision}
    (hbuild : build automaton precisions = .ok graph) : graph.Charted automaton := by
  have hyields : Yields (fun _ ↦ True) (build automaton precisions) (Charted automaton) := by
    have hempty : (empty automaton precisions).Charted automaton :=
      ⟨rfl, List.Pairwise.nil, by simp [empty]⟩
    refine (Yields.foldlM_const hempty fun location _ current hcurrent ↦ ?_).bind
      fun celled hcelled ↦ ?_
    · refine (Yields.any _).bind fun precision _ ↦ (Yields.any _).bind fun allowed _ ↦ ?_
      refine (Yields.any _).bind fun cells _ ↦ ?_
      exact (hcurrent.addStates location cells).bind fun _ hgrown ↦ hgrown
    · exact Yields.foldlM_const hcelled fun edge _ _ hcurrent ↦ hcurrent.connectAll _ _ _
  exact hyields.result hbuild

theorem Evolves.charted (hevolves : Evolves graph after) (hcharted : graph.Charted automaton) :
    after.Charted automaton := by
  cases hevolves with
  | search hsearch => exact hcharted.alike (alike_of_findPath hsearch)
  | mark path highlighted resumeAt =>
    exact hcharted.alike ((alike_setHighlights graph path highlighted).remember _ resumeAt)
  | refine hsplit => exact (hcharted.splitAlong _ _).result hsplit
  | split _ _ hsplit => exact (hcharted.splitState _ _).result hsplit

theorem charted_of_evolves {precisions : PrecisionTable Precision} {start : AbstractGraph}
    (hbuild : build automaton precisions = .ok start)
    (hevolves : Relation.ReflTransGen Evolves start graph) : graph.Charted automaton := by
  induction hevolves with
  | refl => exact charted_build hbuild
  | tail _ hstep ih => exact hstep.charted ih

/-! ### What a chart is good for -/

/-- The edge is the smallest one of a transition between the states. -/
def LeastEdge (graph : AbstractGraph) (source target : StateId) (edge : EdgeId) : Prop :=
  ⟨source, edge, target⟩ ∈ graph.transitions ∧
    ∀ other, ⟨source, other, target⟩ ∈ graph.transitions → edge.index ≤ other.index

theorem LeastEdge.unique {source target : StateId} {edge other : EdgeId}
    (hedge : graph.LeastEdge source target edge) (hother : graph.LeastEdge source target other) :
    edge = other := by
  obtain ⟨index⟩ := edge
  obtain ⟨otherIndex⟩ := other
  exact congrArg EdgeId.mk (le_antisymm (hedge.2 _ hother.1) (hother.2 _ hedge.1))

namespace Charted

/-- Along sorted transitions, the edges that leave a state come in order. -/
theorem successors_pairwise (hcharted : graph.Charted automaton) (source : StateId) :
    (graph.successors source).Pairwise fun left right ↦ left.1.index ≤ right.1.index := by
  rw [successors, List.pairwise_map]
  refine (hcharted.sorted.filter _).imp_of_mem fun {left right} hleft hright hprecedes ↦ ?_
  have hleftSource : left.source = source := of_decide_eq_true (List.mem_filter.mp hleft).2
  have hrightSource : right.source = source := of_decide_eq_true (List.mem_filter.mp hright).2
  rw [Transition.precedes_iff, hleftSource, hrightSource] at hprecedes
  dsimp only
  omega

/-- The edge that is found between two states is the smallest one. -/
theorem edgeBetween_eq_some_iff (hcharted : graph.Charted automaton) {source target : StateId}
    {edge : EdgeId} :
    graph.edgeBetween source target = some edge ↔ graph.LeastEdge source target edge := by
  have hleast : ∀ found, graph.edgeBetween source target = some found →
      graph.LeastEdge source target found := by
    intro found hfound
    refine ⟨edgeBetween_mem hfound, fun other hother ↦ ?_⟩
    obtain ⟨⟨_, next⟩, hfirst, rfl⟩ := Option.map_eq_some_iff.mp hfound
    obtain ⟨-, before, after, hsuccessors, hbefore⟩ := List.find?_eq_some_iff_append.mp hfirst
    have hmem : (other, target) ∈ graph.successors source :=
      List.mem_map.mpr ⟨_, List.mem_filter.mpr ⟨hother, by simp⟩, rfl⟩
    have hsorted := hcharted.successors_pairwise source
    rw [hsuccessors] at hmem hsorted
    rcases List.mem_append.mp hmem with hearly | hlate
    · exact absurd (hbefore _ hearly) (by simp)
    · rcases List.mem_cons.mp hlate with heq | hlater
      · rw [← heq]
      · exact (List.pairwise_cons.mp (List.pairwise_append.mp hsorted).2.1).1 _ hlater
  refine ⟨hleast edge, fun hedge ↦ ?_⟩
  obtain ⟨found, hfound⟩ :=
    Option.isSome_iff_exists.mp (edgeBetween_isSome_iff.mpr ⟨edge, hedge.1⟩)
  rw [hfound, (hleast found hfound).unique hedge]

/-- Following transitions can only overflow, if no reset is negative. -/
theorem movesTolerated (hcharted : graph.Charted automaton) {may : Fault → Prop}
    (hwell : automaton.WellFormed) (hresets : automaton.ResetsNonNegative) :
    graph.MovesTolerated may := by
  obtain rfl := hcharted.automaton_eq
  intro transition htransition move hmove
  refine hwell.move_tolerated hresets hmove fun command hcommand value hvalue hrange ↦ ?_
  exact absurd (hcharted.inRange transition htransition move hmove command hcommand value hvalue)
    hrange

end Charted

end AbstractGraph

end TimedSafety
