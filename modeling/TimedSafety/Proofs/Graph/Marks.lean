import TimedSafety.Proofs.Graph.Refinement

/-!
Highlights, the last path and the position to resume from say nothing about what a graph abstracts.
Graphs that differ only in these are marked alike, and one of them is exact if the other is.
-/

set_option autoImplicit false

namespace TimedSafety

/-- The state without its highlight. -/
def AbstractState.plain (state : AbstractState) : AbstractState :=
  { state with highlighted := false }

/-- Two states are the same but for the highlight. -/
structure AbstractState.Same (first second : AbstractState) : Prop where
  id : first.id = second.id
  location : first.location = second.location
  zone : first.zone = second.zone
  initial : first.initial = second.initial

theorem AbstractState.same_of_plain {first second : AbstractState}
    (hplain : first.plain = second.plain) : first.Same second := by
  cases first
  cases second
  simp only [plain, mk.injEq] at hplain
  exact ⟨hplain.1, hplain.2.1, hplain.2.2.1, hplain.2.2.2.1⟩

namespace AbstractGraph

/-- The graphs differ at most in highlights and in what a search remembers. -/
structure Alike (graph after : AbstractGraph) : Prop where
  automaton_eq : after.automaton = graph.automaton
  transitions_eq : after.transitions = graph.transitions
  precisions_eq : after.precisions = graph.precisions
  nextId_eq : after.nextId = graph.nextId
  states_eq : after.states.map AbstractState.plain = graph.states.map AbstractState.plain

namespace Alike

variable {graph after final : AbstractGraph}

theorem refl (graph : AbstractGraph) : graph.Alike graph := ⟨rfl, rfl, rfl, rfl, rfl⟩

theorem symm (halike : graph.Alike after) : after.Alike graph :=
  ⟨halike.automaton_eq.symm, halike.transitions_eq.symm, halike.precisions_eq.symm,
    halike.nextId_eq.symm, halike.states_eq.symm⟩

theorem trans (hfirst : graph.Alike after) (hsecond : after.Alike final) : graph.Alike final :=
  ⟨hsecond.automaton_eq.trans hfirst.automaton_eq,
    hsecond.transitions_eq.trans hfirst.transitions_eq,
    hsecond.precisions_eq.trans hfirst.precisions_eq, hsecond.nextId_eq.trans hfirst.nextId_eq,
    hsecond.states_eq.trans hfirst.states_eq⟩

theorem exists_mem (halike : graph.Alike after) {state : AbstractState}
    (hstate : state ∈ after.states) :
    ∃ former ∈ graph.states, former.Same state := by
  have hplain : state.plain ∈ graph.states.map AbstractState.plain := by
    rw [← halike.states_eq]
    exact List.mem_map_of_mem hstate
  obtain ⟨former, hformer, hsame⟩ := List.mem_map.mp hplain
  exact ⟨former, hformer, AbstractState.same_of_plain hsame⟩

theorem length_eq (halike : graph.Alike after) : after.states.length = graph.states.length := by
  simpa using congrArg List.length halike.states_eq

theorem ids_eq (halike : graph.Alike after) :
    after.states.map (·.id) = graph.states.map (·.id) := by
  have hids := congrArg (List.map (·.id)) halike.states_eq
  simpa [List.map_map, Function.comp_def, AbstractState.plain] using hids

theorem zonesAt_eq (halike : graph.Alike after) (location : Location) :
    after.zonesAt location = graph.zonesAt location := by
  have hzones : ∀ states : List AbstractState,
      (states.filter fun state ↦ state.location = location).map (·.zone) =
        ((states.map AbstractState.plain).filter fun state ↦ state.location = location).map
          (·.zone) := by
    intro states
    rw [List.filter_map, List.map_map]
    rfl
  rw [zonesAt, zonesAt, statesAt, statesAt, hzones after.states, hzones graph.states,
    halike.states_eq]

theorem later (halike : graph.Alike after) : graph.Later after := by
  refine ⟨halike.automaton_eq, by rw [halike.nextId_eq], fun state hstate _ ↦ ?_⟩
  obtain ⟨former, hformer, hsame⟩ := halike.exists_mem hstate
  exact ⟨former, hformer, hsame.id, hsame.location, hsame.zone⟩

end Alike

variable {graph after : AbstractGraph}

theorem FlagExact.same {automaton : Automaton} {state former : AbstractState}
    (hsame : former.Same state) (hflag : FlagExact automaton former) :
    FlagExact automaton state := by
  unfold FlagExact at hflag ⊢
  rwa [hsame.initial, hsame.location, hsame.zone] at hflag

theorem Joins.same {automaton : Automaton} {edge : EdgeId}
    {source target source' target' : AbstractState} (hsource : source'.Same source)
    (htarget : target'.Same target) (hjoins : Joins automaton edge source target) :
    Joins automaton edge source' target' := by
  unfold Joins Reaches at hjoins ⊢
  rwa [hsource.location, htarget.location, hsource.zone, htarget.zone]

/-- Marks do not matter for the partition. -/
theorem StatesExact.alike (hexact : graph.StatesExact) (halike : graph.Alike after) :
    after.StatesExact := by
  refine ⟨?_, ?_, ?_, ?_⟩
  · rw [halike.ids_eq]
    exact hexact.distinct
  · intro state hstate
    obtain ⟨former, hformer, hsame⟩ := halike.exists_mem hstate
    rw [halike.nextId_eq, ← hsame.id]
    exact hexact.fresh former hformer
  · intro location
    rw [halike.zonesAt_eq, halike.automaton_eq]
    exact hexact.tiles location
  · intro state hstate
    obtain ⟨former, hformer, hsame⟩ := halike.exists_mem hstate
    rw [halike.automaton_eq]
    exact (hexact.flag former hformer).same hsame

/-- Marks do not matter for exactness. -/
theorem Exact.alike (hexact : graph.Exact) (halike : graph.Alike after) : after.Exact := by
  refine ⟨hexact.toStatesExact.alike halike, fun transition ↦ ?_⟩
  rw [halike.transitions_eq, halike.automaton_eq, hexact.transition_iff]
  constructor
  · rintro ⟨source, hsource, target, htarget, hsourceId, htargetId, hjoins⟩
    obtain ⟨source', hsource', hsourceSame⟩ := halike.symm.exists_mem hsource
    obtain ⟨target', htarget', htargetSame⟩ := halike.symm.exists_mem htarget
    exact ⟨source', hsource', target', htarget', hsourceSame.id.trans hsourceId,
      htargetSame.id.trans htargetId, hjoins.same hsourceSame htargetSame⟩
  · rintro ⟨source, hsource, target, htarget, hsourceId, htargetId, hjoins⟩
    obtain ⟨source', hsource', hsourceSame⟩ := halike.exists_mem hsource
    obtain ⟨target', htarget', htargetSame⟩ := halike.exists_mem htarget
    exact ⟨source', hsource', target', htarget', hsourceSame.id.trans hsourceId,
      htargetSame.id.trans htargetId, hjoins.same hsourceSame htargetSame⟩

/-! ### Marking -/

theorem alike_setHighlight (graph : AbstractGraph) (id : StateId) (highlighted : Bool) :
    graph.Alike (graph.setHighlight id highlighted) := by
  refine ⟨rfl, rfl, rfl, rfl, ?_⟩
  simp only [setHighlight, List.map_map]
  refine List.map_congr_left fun state _ ↦ ?_
  simp only [Function.comp_apply, AbstractState.plain]
  split_ifs <;> rfl

theorem alike_setHighlights (graph : AbstractGraph) (path : List StateId) (highlighted : Bool) :
    graph.Alike (graph.setHighlights path highlighted) := by
  unfold setHighlights
  exact List.foldlRecOn (motive := fun current ↦ graph.Alike current) path _ (.refl graph)
    fun current hcurrent id _ ↦ hcurrent.trans (alike_setHighlight current id highlighted)

/-- What a search remembers does not matter. -/
theorem Alike.remember (halike : graph.Alike after) (lastPath : List StateId) (resumeAt : Nat) :
    graph.Alike { after with lastPath, resumeAt } :=
  ⟨halike.automaton_eq, halike.transitions_eq, halike.precisions_eq, halike.nextId_eq,
    halike.states_eq⟩

end AbstractGraph

end TimedSafety
