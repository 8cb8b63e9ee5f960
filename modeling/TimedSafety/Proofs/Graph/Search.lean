import TimedSafety.Proofs.Graph.Exploration
import TimedSafety.Proofs.Graph.Marks

/-!
The search for errors on an exact graph. A path that is found starts at an initial state, follows
transitions and ends at a state from which an error is reached by waiting. If none is found, there
is a set of states with all initial states in it, closed under transitions and without such a state.
Every run stays within that set, so the automaton is safe (`Secured.isSafe`).
-/

set_option autoImplicit false

namespace TimedSafety.AbstractGraph

variable {may : Fault → Prop} {graph : AbstractGraph}

/-- Waiting leads from some valuation of the state into an error. -/
def Doomed (graph : AbstractGraph) (state : AbstractState) : Prop :=
  ∃ valuation ∈ state.zone, ∃ final, graph.automaton.Fails ⟨state.location, valuation⟩ final

/-- The number is that of a doomed state. -/
def DoomedId (graph : AbstractGraph) (id : StateId) : Prop :=
  ∃ state ∈ graph.states, state.id = id ∧ graph.Doomed state

theorem isErrorState_yields (hmay : Tolerant may) (hexact : graph.StatesExact)
    (hwell : graph.automaton.WellFormed) (id : StateId) :
    Yields may (graph.isErrorState id) fun error ↦ (error = true ↔ graph.DoomedId id) := by
  unfold isErrorState
  cases hstate : graph.state? id with
  | none =>
    have hnone : ¬ graph.DoomedId id := by
      rintro ⟨state, hmem, hid, -⟩
      rw [(state?_eq_some_iff hexact.distinct).mpr ⟨hmem, hid⟩] at hstate
      contradiction
    simpa using hnone
  | some state =>
    obtain ⟨hmem, hid⟩ := (state?_eq_some_iff hexact.distinct).mp hstate
    have hdoomed : graph.DoomedId id ↔ graph.Doomed state := by
      constructor
      · rintro ⟨other, hother, hotherId, hdoomed⟩
        rwa [hexact.eq_of_id hmem hother (hid.trans hotherId.symm)]
      · exact fun hdoomed ↦ ⟨state, hmem, hid, hdoomed⟩
    rw [hdoomed]
    dsimp only
    cases herror : graph.automaton.error? state.location with
    | none =>
      have hnot : ¬ graph.Doomed state := by
        rintro ⟨valuation, -, final, hfails⟩
        exact Automaton.not_fails herror hfails
      simpa using hnot
    | some condition =>
      refine (Zone.meets_yields hmay (hexact.zoneSound hmem)
        (Automaton.approach_denotes hwell herror)).mono fun error hmeets ↦ hmeets.trans ?_
      constructor
      · rintro ⟨valuation, hvaluation, -, hfails⟩
        exact ⟨valuation, hvaluation, hfails⟩
      · rintro ⟨valuation, hvaluation, hfails⟩
        exact ⟨valuation, hvaluation, hexact.allows hmem hvaluation, hfails⟩

/-! ### Paths to errors -/

/-- The path starts at an initial state, follows transitions and ends at a doomed state. -/
def ErrorPath (graph : AbstractGraph) : List StateId → Prop :=
  graph.PathTo graph.DoomedId

/-- Marks do not matter for where a path starts. -/
theorem StartsInitial.alike {after : AbstractGraph} {path : List StateId}
    (hstart : graph.StartsInitial path) (halike : graph.Alike after) :
    after.StartsInitial path := by
  obtain ⟨first, hfirst, hhead, hinitial⟩ := hstart
  obtain ⟨marked, hmarked, hsame⟩ := halike.symm.exists_mem hfirst
  exact ⟨marked, hmarked, by rw [hsame.id, hhead], hsame.initial.trans hinitial⟩

theorem Alike.linked_eq {after : AbstractGraph} (halike : graph.Alike after) :
    after.Linked = graph.Linked := by
  unfold Linked
  rw [halike.transitions_eq]

/-- Marks do not matter for paths to errors. -/
theorem ErrorPath.alike {after : AbstractGraph} {path : List StateId}
    (herror : graph.ErrorPath path) (halike : graph.Alike after) : after.ErrorPath path := by
  obtain ⟨hstart, hlinked, last, hlast, state, hstate, hid, hdoomed⟩ := herror
  refine ⟨hstart.alike halike, ?_, last, hlast, ?_⟩
  · rwa [halike.linked_eq]
  · obtain ⟨marked, hmarked, hsame⟩ := halike.symm.exists_mem hstate
    refine ⟨marked, hmarked, hsame.id.trans hid, ?_⟩
    unfold Doomed at hdoomed ⊢
    rwa [hsame.zone, hsame.location, halike.automaton_eq]

/-- The initial states are enclosed in a set without doomed states that no transition leaves. -/
def Secured (graph : AbstractGraph) : Prop :=
  ∃ inside : StateId → Prop, (∀ state ∈ graph.states, state.initial = true → inside state.id) ∧
    ∀ id, inside id → ¬ graph.DoomedId id ∧ ∀ next, graph.Linked id next → inside next

/-- Without a path to an error, the numbers on paths from initial states are such a set. -/
theorem secured_of_not_errorPath (hnone : ∀ path, ¬ graph.ErrorPath path) : graph.Secured := by
  refine ⟨fun id ↦ ∃ path, graph.StartsInitial path ∧ path.IsChain graph.Linked ∧
    path.getLast? = some id, fun state hstate hinitial ↦ ?_, ?_⟩
  · exact ⟨[state.id], ⟨state, hstate, rfl, hinitial⟩, List.isChain_singleton _, rfl⟩
  · rintro id ⟨path, hstart, hlinked, hlast⟩
    refine ⟨fun hdoomed ↦ hnone path ⟨hstart, hlinked, id, hlast, hdoomed⟩, fun next hnext ↦ ?_⟩
    refine ⟨path ++ [next], hstart.append [next], ?_, by simp⟩
    refine hlinked.append (List.isChain_singleton next) fun last hmem first hfirst ↦ ?_
    obtain rfl : id = last := by simpa [hlast] using hmem
    obtain rfl : next = first := by simpa using hfirst
    exact hnext

/-- Transitions lead between states of an exact graph. -/
theorem Exact.linked_mem (hexact : graph.Exact) {source target : StateId}
    (hlinked : graph.Linked source target) :
    source ∈ graph.states.map (·.id) ∧ target ∈ graph.states.map (·.id) := by
  obtain ⟨edge, hmem⟩ := hlinked
  obtain ⟨first, hfirst, second, hsecond, hsourceId, htargetId, -⟩ :=
    (hexact.transition_iff _).mp hmem
  exact ⟨List.mem_map.mpr ⟨first, hfirst, hsourceId⟩,
    List.mem_map.mpr ⟨second, hsecond, htargetId⟩⟩

theorem Exact.joined (hexact : graph.Exact) : graph.Joined := by
  intro transition hmem
  have hlinked : graph.Linked transition.source transition.target := ⟨transition.edge, hmem⟩
  rw [hasState_iff, hasState_iff]
  exact hexact.linked_mem hlinked

theorem search_yields (hmay : Tolerant may) (hexact : graph.Exact)
    (hwell : graph.automaton.WellFormed) :
    Yields may graph.search fun found ↦ found.elim graph.Secured graph.ErrorPath := by
  have hdetects : graph.Detects may graph.DoomedId :=
    isErrorState_yields hmay hexact.toStatesExact hwell
  refine (hdetects.search_yields hexact.distinct).mono ?_
  rintro (_ | path) hfound
  · exact secured_of_not_errorPath (hfound hexact.joined)
  · exact hfound.1.pathTo

/-- A search changes marks only, and what it remembers. -/
theorem alike_of_findPath {after : AbstractGraph} {found : Option (List StateId)}
    (hfind : graph.findPath = .ok (after, found)) : graph.Alike after := by
  have hyields : Yields (fun _ ↦ True) graph.findPath (graph.Alike ·.1) := by
    refine (Yields.any _).bind fun found _ ↦ ?_
    cases found with
    | some path => exact (alike_setHighlights graph path true).remember path _
    | none => exact (Alike.refl graph).remember [] _
  exact hyields.result hfind

/-- The search finds a path to an error, or the graph is secured; it changes marks only. -/
theorem findPath_yields (hmay : Tolerant may) (hexact : graph.Exact)
    (hwell : graph.automaton.WellFormed) :
    Yields may graph.findPath fun result ↦ graph.Alike result.1 ∧
      result.2.elim graph.Secured graph.ErrorPath := by
  have hfound : Yields may graph.findPath fun result ↦
      result.2.elim graph.Secured graph.ErrorPath := by
    refine (search_yields hmay hexact hwell).bind fun found hfound ↦ ?_
    cases found <;> exact hfound
  refine (hfound.and (.of_forall fun _ hresult ↦ alike_of_findPath hresult)).mono ?_
  exact fun _ hresult ↦ hresult.symm

/-! ### Safety -/

/-- An exact graph simulates the automaton: every run passes through states that are linked, from an
initial one on, so it stays within a set that holds the initial states and is closed. -/
theorem Exact.run_mem (hexact : graph.Exact) (hwell : graph.automaton.WellFormed)
    {inside : StateId → Prop}
    (hinitial : ∀ state ∈ graph.states, state.initial = true → inside state.id)
    (hclosed : ∀ id, inside id → ∀ next, graph.Linked id next → inside next)
    {taken : List (Configuration × EdgeId)} {here : Configuration}
    (hrun : graph.automaton.Run taken here) :
    ∃ state ∈ graph.states, state.location = here.location ∧ here.valuation ∈ state.zone ∧
      inside state.id := by
  obtain ⟨state, hstate, hlocation, hmem⟩ := hexact.exists_state (hrun.allows hwell)
  refine ⟨state, hstate, hlocation, hmem, ?_⟩
  induction hrun generalizing state with
  | start hplace hallowed =>
    refine hinitial state hstate ((hexact.flag state hstate).mpr ⟨hlocation, _, hmem, ?_⟩)
    exact Automaton.starts_iff.mpr (.start hplace hallowed)
  | @step taken here edge move after hrun hmove hsource hleads ih =>
    obtain ⟨former, hformer, hthere, hbefore⟩ := hexact.exists_state (hrun.allows hwell)
    refine hclosed former.id (ih former hformer hthere hbefore) state.id ⟨edge, ?_⟩
    exact (hexact.transition_iff _).mpr ⟨former, hformer, state, hstate, rfl, rfl, move, hmove,
      hthere.trans hsource.symm, hlocation, _, hbefore, _, hmem, hleads⟩

/-- If an exact graph is secured, no run of its automaton leads to an error. -/
theorem Secured.isSafe (hsecured : graph.Secured) (hexact : graph.Exact)
    (hwell : graph.automaton.WellFormed) : graph.automaton.IsSafe := by
  intro taken here final hrun hfails
  obtain ⟨inside, hinitial, hclosed⟩ := hsecured
  obtain ⟨state, hstate, hlocation, hmem, hinside⟩ :=
    hexact.run_mem hwell hinitial (fun id hid ↦ (hclosed id hid).2) hrun
  refine (hclosed state.id hinside).1 ⟨state, hstate, rfl, here.valuation, hmem, final, ?_⟩
  rwa [hlocation]

end TimedSafety.AbstractGraph
