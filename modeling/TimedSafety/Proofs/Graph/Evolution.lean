import Mathlib.Logic.Relation
import TimedSafety.Proofs.Automaton.Successor
import TimedSafety.Proofs.Graph.Search
import TimedSafety.Proofs.Zone.Cells

/-!
The life of an abstract graph. Between its construction and any later time a graph is searched,
marked, refined along paths by interpolants of any kind, and its states are split into tilings of
their zones. Every such change keeps the abstraction exact and gives out new numbers only, so the
graph is exact at any time (`exact_of_evolves`). For splits this takes pieces in canonical form:
zones with the same valuations in another form can be joined to states that they do not reach.
-/

set_option autoImplicit false

namespace TimedSafety.AbstractGraph

/-- One change of a graph. The zones that a state is split into are disjoint, hold something each,
cover the zone of the state, and are canonical. -/
inductive Evolves : AbstractGraph → AbstractGraph → Prop
  | search {graph after : AbstractGraph} {found : Option (List StateId)}
      (hsearch : graph.findPath = .ok (after, found)) : Evolves graph after
  | mark (graph : AbstractGraph) (path : List StateId) (highlighted : Bool) (resumeAt : Nat) :
      Evolves graph { graph.setHighlights path highlighted with resumeAt }
  | refine {graph after : AbstractGraph} {path : List StateId} {interpolant : Interpolant}
      {first : Nat} (hsplit : graph.splitAlong path interpolant = .ok (after, first)) :
      Evolves graph after
  | split {graph after : AbstractGraph} {id : StateId} {old : AbstractState} {zones : List Zone}
      {pieces : List AbstractState} (hold : graph.state? id = some old)
      (htiles : Tiles zones graph.automaton.clocks (· ∈ old.zone))
      (hsplit : graph.splitState id zones = .ok (after, pieces)) : Evolves graph after

variable {graph after : AbstractGraph}

/-- One change keeps the abstraction exact and reuses no number. -/
theorem Evolves.exact (hevolves : Evolves graph after) (hexact : graph.Exact)
    (hwell : graph.automaton.WellFormed) (hresets : graph.automaton.ResetsNonNegative) :
    after.Exact ∧ graph.Later after := by
  have htolerated := hwell.tolerated_true hresets
  cases hevolves with
  | search hsearch =>
    have halike := ((findPath_yields tolerant_true hexact hwell).result hsearch).1
    exact ⟨hexact.alike halike, halike.later⟩
  | mark path highlighted resumeAt =>
    have halike := (alike_setHighlights graph path highlighted).remember
      (graph.setHighlights path highlighted).lastPath resumeAt
    exact ⟨hexact.alike halike, halike.later⟩
  | refine hsplit =>
    obtain ⟨progress, rfl, hadvances, -⟩ := (splitAlong_yields tolerant_true hexact htolerated
      (fun _ _ _ ↦ trivial) (fun _ _ _ ↦ trivial)
      fun _ _ ↦ .of_forall fun _ _ atom _ ↦ atom.tolerated_true _).result hsplit
    exact ⟨hadvances.exact, hadvances.later⟩
  | split hold htiles hsplit =>
    obtain ⟨hafter, hdivides, -⟩ :=
      (splitState_yields tolerant_true hexact htolerated hold htiles).result hsplit
    exact ⟨hafter, hdivides.later⟩

/-- Any number of changes keeps the abstraction exact and reuses no number. -/
theorem exact_of_evolves (hevolves : Relation.ReflTransGen Evolves graph after)
    (hexact : graph.Exact) (hwell : graph.automaton.WellFormed)
    (hresets : graph.automaton.ResetsNonNegative) : after.Exact ∧ graph.Later after := by
  induction hevolves with
  | refl => exact ⟨hexact, .refl graph⟩
  | tail _ hstep ih =>
    obtain ⟨hbetween, hlater⟩ := ih
    have hautomaton := hlater.automaton_eq
    obtain ⟨hfinal, hnext⟩ := hstep.exact hbetween (by rwa [hautomaton]) (by rwa [hautomaton])
    exact ⟨hfinal, hlater.trans hnext⟩

/-- The graph is an exact abstraction of the automaton, under a partition of its invariants. -/
structure Abstracts (graph : AbstractGraph) (automaton : Automaton) : Prop where
  /-- The zones at a location are not empty, pairwise disjoint, and cover just its invariant. -/
  partition : ∀ location ∈ automaton.locations, ∃ allowed,
    automaton.invariantZone location = .ok allowed ∧
      Tiles (graph.zonesAt location) automaton.clocks (· ∈ allowed)
  placed : ∀ state ∈ graph.states, state.location ∈ automaton.locations
  /-- A transition is there just if it leads from some valuation of its source, by waiting and then
  taking its edge, to some valuation of its target. -/
  transition_iff : ∀ source edge target, ⟨source, edge, target⟩ ∈ graph.transitions ↔
    ∃ first second, graph.state? source = some first ∧ graph.state? target = some second ∧
      Joins automaton edge first second
  /-- A state is initial just if it is at the initial location and holds an initial valuation. -/
  initial_iff : ∀ state ∈ graph.states, FlagExact automaton state
  /-- Every state is found under its own number, which was given out before. -/
  stored : ∀ state ∈ graph.states, graph.state? state.id = some state ∧
    state.id.number < graph.nextId.number

/-- At any time after it was built, a graph is an exact abstraction of its automaton; and from any
time to any later one, no number is used for another state than before, nor used again. -/
theorem abstracts_of_evolves {draft : AutomatonDraft} {automaton : Automaton}
    (hdraft : draft.build = .ok automaton) (hresets : automaton.ResetsNonNegative)
    {precisions : PrecisionTable Precision} {start earlier later : AbstractGraph}
    (hbuild : build automaton precisions = .ok start)
    (hearlier : Relation.ReflTransGen Evolves start earlier)
    (hlater : Relation.ReflTransGen Evolves earlier later) :
    later.Abstracts automaton ∧ earlier.Later later := by
  have hwell := AutomatonDraft.wellFormed_of_build hdraft
  obtain ⟨rfl, -, hstart, hcomputed⟩ := (build_yields tolerant_true (hwell.tolerated_true hresets)
    ⟨fun _ _ _ ↦ trivial, fun _ _ _ atom _ ↦ atom.tolerated_true _⟩).result hbuild
  obtain ⟨hexactEarlier, hbefore⟩ := exact_of_evolves hearlier hstart hwell hresets
  obtain ⟨hexact, hsince⟩ := exact_of_evolves hlater hexactEarlier
    (by rwa [hbefore.automaton_eq]) (by rwa [hbefore.automaton_eq])
  have hautomaton := hsince.automaton_eq.trans hbefore.automaton_eq
  refine ⟨⟨?_, ?_, ?_, ?_, ?_⟩, hsince⟩
  · intro location hlocation
    obtain ⟨allowed, hallowed⟩ := hcomputed location hlocation
    have hdenotes := (Automaton.invariantZone_yields tolerant_true hwell hlocation).result hallowed
    refine ⟨allowed, hallowed, ?_⟩
    rw [← hautomaton] at hdenotes ⊢
    exact (hexact.tiles location).congr fun valuation ↦ (hdenotes.mem_iff valuation).symm
  · intro state hstate
    rw [← hautomaton]
    exact hexact.location_mem hstate
  · intro source edge target
    rw [hexact.transition_iff, hautomaton]
    simp only [state?_eq_some_iff hexact.distinct]
    constructor
    · rintro ⟨first, hfirst, second, hsecond, hsource, htarget, hjoins⟩
      exact ⟨first, second, ⟨hfirst, hsource⟩, ⟨hsecond, htarget⟩, hjoins⟩
    · rintro ⟨first, second, ⟨hfirst, hsource⟩, ⟨hsecond, htarget⟩, hjoins⟩
      exact ⟨first, hfirst, second, hsecond, hsource, htarget, hjoins⟩
  · rw [← hautomaton]
    exact hexact.flag
  · exact fun state hstate ↦ ⟨(state?_eq_some_iff hexact.distinct).mpr ⟨hstate, rfl⟩,
      hexact.fresh state hstate⟩

/-- The graph of the urgent turnstile without atoms, which can not tell that it never opens. -/
def turnstileGraph : AbstractGraph where
  automaton := AutomatonDraft.turnstileAutomaton true
  states := [⟨⟨0⟩, ⟨0⟩, .top 1, true, false⟩, ⟨⟨1⟩, ⟨1⟩, .top 1, false, false⟩]
  transitions := [⟨⟨0⟩, ⟨0⟩, ⟨1⟩⟩]
  precisions := .uniform .empty
  resumeAt := 0
  lastPath := []
  nextId := ⟨2⟩

theorem build_turnstileGraph :
    build (AutomatonDraft.turnstileAutomaton true) (.uniform .empty) = .ok turnstileGraph := by
  decide +kernel

/-- The graph of the urgent turnstile after a first search. -/
def searchedTurnstile : AbstractGraph :=
  { turnstileGraph.setHighlights [⟨0⟩, ⟨1⟩] true with lastPath := [⟨0⟩, ⟨1⟩] }

theorem findPath_turnstile :
    turnstileGraph.findPath = .ok (searchedTurnstile, some [⟨0⟩, ⟨1⟩]) := by
  decide +kernel

/-- Cutting zero off the closed state of the urgent turnstile leaves an exact abstraction with three
states. -/
theorem abstracts_turnstile : ∃ later, Evolves turnstileGraph later ∧ later.states.length = 3 ∧
    later.Abstracts (AutomatonDraft.turnstileAutomaton true) ∧ turnstileGraph.Later later := by
  have hcount : (turnstileGraph.splitAlong [⟨0⟩] (.binary 0 (.reach (Zone.zero 1)))).map
      (·.1.states.length) = .ok 3 := by decide +kernel
  obtain ⟨refined, hsplit, hstates⟩ := exists_ok_of_map hcount
  have hevolves : Evolves turnstileGraph refined.1 := .refine hsplit
  exact ⟨refined.1, hevolves, hstates, abstracts_of_evolves (AutomatonDraft.build_turnstile true)
    (by decide) build_turnstileGraph .refl (.single hevolves)⟩

/-! ### Pieces that are not canonical -/

/-- Over two clocks, a way from one location to another that asks for nothing. -/
def slopeAutomaton : Automaton :=
  Automaton.bridgeAutomaton ["x", "y"] (Automaton.bridgeMove [] [] [])

/-- The second clock is ahead of the first, or it is not. -/
def slopeZone (ahead : Bool) : Zone where
  clocks := 2
  matrix := .tabulate fun i j ↦
    if ahead = true ∧ i.val ≠ 2 ∧ j.val = 2 then .below 0
    else if i.val = 0 ∨ i = j ∨ (ahead = false ∧ i.val = 2 ∧ j.val = 1) then .zero
    else .infinite

/-- The graph of the slope, which tells at its end whether the second clock is ahead. -/
def slopeGraph : AbstractGraph where
  automaton := slopeAutomaton
  states := [⟨⟨0⟩, ⟨0⟩, .top 2, true, false⟩, ⟨⟨1⟩, ⟨1⟩, slopeZone false, false, false⟩,
    ⟨⟨2⟩, ⟨1⟩, slopeZone true, false, false⟩]
  transitions := [⟨⟨0⟩, ⟨0⟩, ⟨1⟩⟩, ⟨⟨0⟩, ⟨0⟩, ⟨2⟩⟩]
  precisions :=
    ⟨[(⟨1⟩, ⟨[.compare ⟨2, Nat.two_pos⟩ (some ⟨1, Nat.one_pos⟩) .atMost 0]⟩)], some .empty⟩
  resumeAt := 0
  lastPath := []
  nextId := ⟨3⟩

theorem build_slope : (Automaton.bridge ["x", "y"] (Automaton.bridgeMove [] [] [])).build =
    .ok slopeAutomaton := by
  decide +kernel

theorem build_slopeGraph : build slopeAutomaton slopeGraph.precisions = .ok slopeGraph := by
  decide +kernel

/-- The second clock is not zero. -/
def aboveZone : Zone where
  clocks := 2
  matrix := .tabulate fun i j ↦
    if i.val = 0 ∧ j.val = 2 then .below 0
    else if i.val = 0 ∨ i = j then .zero
    else .infinite

/-- The states for a second clock at zero, written with some slack, and for one above. -/
def slopePieces (slack : Int) : List AbstractState :=
  [⟨⟨3⟩, ⟨0⟩, Zone.tiltedZone slack, true, false⟩, ⟨⟨4⟩, ⟨0⟩, aboveZone, false, false⟩]

/-- The graph of the slope with these states in place of the first one. -/
def dividedSlope (slack : Int) (transitions : List Transition) : AbstractGraph :=
  { slopeGraph with
    states := slopeGraph.states.tail ++ slopePieces slack
    transitions
    nextId := ⟨5⟩ }

theorem tiles_slope : Tiles [Zone.tiltedZone 0, aboveZone] 2 (· ∈ Zone.top 2) := by
  have hpartition : (Zone.top 2).partitionBy [.compare ⟨2, Nat.two_pos⟩ none .atMost 0] =
      .ok ⟨[Zone.tiltedZone 0, aboveZone], [.compare ⟨2, Nat.two_pos⟩ none .atMost 0]⟩ := by
    decide +kernel
  exact ((Zone.partitionBy_yields tolerant_true (Zone.denotes_top 2).members
    fun atom _ ↦ atom.tolerated_true _).result hpartition).1

theorem mem_tiltedZone_iff (valuation : Valuation) :
    valuation ∈ Zone.tiltedZone 7 ↔ valuation ∈ Zone.tiltedZone 0 := by
  have hclose : (Zone.tiltedZone 7).matrix.close = .ok (Zone.tiltedZone 0).matrix := by
    decide +kernel
  exact Zone.mem_iff_of_close hclose valuation

/-- Without slack, the state with the second clock at zero leads only to where this clock is not
ahead. -/
theorem exact_dividedSlope : (dividedSlope 0
    [⟨⟨3⟩, ⟨0⟩, ⟨1⟩⟩, ⟨⟨4⟩, ⟨0⟩, ⟨1⟩⟩, ⟨⟨4⟩, ⟨0⟩, ⟨2⟩⟩]).Exact := by
  have htolerated : slopeGraph.automaton.Tolerated fun _ ↦ True :=
    (AutomatonDraft.wellFormed_of_build build_slope).tolerated_true (by decide)
  have hsplit : slopeGraph.splitState ⟨0⟩ [Zone.tiltedZone 0, aboveZone] =
      .ok (dividedSlope 0 [⟨⟨3⟩, ⟨0⟩, ⟨1⟩⟩, ⟨⟨4⟩, ⟨0⟩, ⟨1⟩⟩, ⟨⟨4⟩, ⟨0⟩, ⟨2⟩⟩],
        slopePieces 0) := by
    decide +kernel
  obtain ⟨-, -, hexact, -⟩ := (build_yields tolerant_true htolerated
    ⟨fun _ _ _ ↦ trivial, fun _ _ _ atom _ ↦ atom.tolerated_true _⟩).result build_slopeGraph
  have hold : slopeGraph.state? ⟨0⟩ = some ⟨⟨0⟩, ⟨0⟩, .top 2, true, false⟩ := rfl
  have hyields := splitState_yields tolerant_true hexact htolerated hold tiles_slope
  exact (hyields.result hsplit).1

/-- With slack, the zone for a second clock at zero still holds the same, so it and the zone above
are disjoint, hold something each and cover everything. Splitting the first state into these two
makes a transition to where the second clock is ahead, although nothing leads there. -/
theorem tilted_split_misjoins :
    (Automaton.bridge ["x", "y"] (Automaton.bridgeMove [] [] [])).build = .ok slopeAutomaton ∧
    slopeAutomaton.ResetsNonNegative ∧
    build slopeAutomaton slopeGraph.precisions = .ok slopeGraph ∧
    slopeGraph.state? ⟨0⟩ = some ⟨⟨0⟩, ⟨0⟩, .top 2, true, false⟩ ∧
    (Zone.zero 2).transform [.reset ⟨1, Nat.one_pos⟩ (-7), .up, .reset ⟨2, Nat.two_pos⟩ 0, .down] =
      .ok (Zone.tiltedZone 7) ∧
    (∀ piece ∈ [Zone.tiltedZone 7, aboveZone], ∃ valuation, valuation ∈ piece) ∧
    (∀ valuation ∈ Zone.tiltedZone 7, valuation ∉ aboveZone) ∧
    (∀ valuation, valuation ∈ Zone.top 2 ↔
      valuation ∈ Zone.tiltedZone 7 ∨ valuation ∈ aboveZone) ∧
    ∃ after pieces, slopeGraph.splitState ⟨0⟩ [Zone.tiltedZone 7, aboveZone] =
        .ok (after, pieces) ∧
      ⟨⟨3⟩, ⟨0⟩, ⟨2⟩⟩ ∈ after.transitions ∧ ∀ first second, after.state? ⟨3⟩ = some first →
        after.state? ⟨2⟩ = some second → ¬ Joins slopeAutomaton ⟨0⟩ first second := by
  have hsplit : slopeGraph.splitState ⟨0⟩ [Zone.tiltedZone 7, aboveZone] =
      .ok (dividedSlope 7 [⟨⟨3⟩, ⟨0⟩, ⟨1⟩⟩, ⟨⟨3⟩, ⟨0⟩, ⟨2⟩⟩, ⟨⟨4⟩, ⟨0⟩, ⟨1⟩⟩, ⟨⟨4⟩, ⟨0⟩, ⟨2⟩⟩],
        slopePieces 7) := by
    decide +kernel
  refine ⟨build_slope, by decide, build_slopeGraph, rfl, by decide +kernel, ?_, ?_, ?_, _, _,
    hsplit, by simp [dividedSlope], ?_⟩
  · have hexists : ∀ piece ∈ [Zone.tiltedZone 0, aboveZone], ∃ valuation, valuation ∈ piece :=
      fun piece hpiece ↦ tiles_slope.exists_mem hpiece
    simpa only [List.forall_mem_cons, mem_tiltedZone_iff] using hexists
  · intro valuation hmem
    have hdisjoint := List.rel_of_pairwise_cons tiles_slope.disjoint List.mem_cons_self
    exact hdisjoint valuation ((mem_tiltedZone_iff valuation).mp hmem)
  · intro valuation
    rw [tiles_slope.cover valuation, mem_tiltedZone_iff]
    simp
  · intro first second hfirst hsecond hjoins
    obtain rfl := Option.some.inj hfirst
    obtain rfl := Option.some.inj hsecond
    obtain ⟨move, hmove, hsource, htarget, before, hbefore, after, hafter, hleads⟩ := hjoins
    -- The same valuations would make the transition where it is missing.
    have htransition := (exact_dividedSlope.transition_iff ⟨⟨3⟩, ⟨0⟩, ⟨2⟩⟩).mpr
      ⟨⟨⟨3⟩, ⟨0⟩, Zone.tiltedZone 0, true, false⟩, by simp [dividedSlope, slopePieces],
        ⟨⟨2⟩, ⟨1⟩, slopeZone true, false, false⟩, by simp [dividedSlope, slopeGraph], rfl, rfl,
        move, hmove, hsource, htarget, before, (mem_tiltedZone_iff before).mp hbefore, after, hafter,
        hleads⟩
    exact absurd htransition (by decide)

end TimedSafety.AbstractGraph
