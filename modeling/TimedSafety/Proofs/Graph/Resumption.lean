import TimedSafety.Proofs.Graph.ErrorStates
import TimedSafety.Proofs.Graph.Realization
import TimedSafety.Proofs.Graph.Steps

/-!
What one search leaves behind for the next. A search remembers the path it found and highlights its
states. Whatever it is left with, the next search finds a path just if there is one
(`findPath_iff_exists`), unless checking a state for errors overflows (`ring_search_overflows`). A
refinement splits states of the path only from some position on. Those before that position stay,
with the transitions between them, so the next search can be resumed there (`Resumable`).
-/

set_option autoImplicit false

namespace TimedSafety.AbstractGraph

variable {graph after : AbstractGraph}

/-! ### Searching again -/

/-- The check for errors accepts the number. -/
def ErrorId (graph : AbstractGraph) (id : StateId) : Prop := graph.isErrorState id = .ok true

/-- The fault is that of checking some state for errors. -/
def CheckFault (graph : AbstractGraph) (fault : Fault) : Prop :=
  ∃ state ∈ graph.states, graph.isErrorState state.id = .error fault

theorem detects_errorId (graph : AbstractGraph) : graph.Detects graph.CheckFault graph.ErrorId := by
  intro id
  cases hcheck : graph.isErrorState id with
  | ok error => simp [ErrorId, hcheck]
  | error fault =>
    cases hstate : graph.state? id with
    | none => simp [isErrorState, hstate] at hcheck
    | some state =>
      refine ⟨state, mem_of_state? hstate, ?_⟩
      rw [id_of_state? hstate, hcheck]

/-- What is found is what the search finds, and it is remembered. -/
theorem findPath_search (graph : AbstractGraph) :
    Yields (fun _ ↦ True) graph.findPath fun result ↦ graph.search = .ok result.2 ∧
      result.1.lastPath = result.2.getD [] ∧ ∀ path, result.2 = some path →
        result.1 = { graph.setHighlights path true with lastPath := path } := by
  refine (Yields.any graph.search).bind_eq fun found hsearch _ ↦ ?_
  cases found with
  | none => exact ⟨hsearch, rfl, nofun⟩
  | some path =>
    refine ⟨hsearch, rfl, ?_⟩
    rintro _ ⟨⟩
    rfl

/-- Where a path was found, its states are highlighted and it is remembered. -/
theorem eq_of_findPath {path : List StateId} (hfind : graph.findPath = .ok (after, some path)) :
    after = { graph.setHighlights path true with lastPath := path } :=
  (graph.findPath_search.result hfind).2.2 path rfl

/-- The path was stored by an earlier search, which could itself make use of one. -/
inductive Remembered : List StateId → Prop
  | nothing : Remembered []
  | search {graph after : AbstractGraph} {found : Option (List StateId)}
      (hdistinct : (graph.states.map (·.id)).Nodup) (hearlier : Remembered graph.lastPath)
      (hfind : graph.findPath = .ok (after, found)) : Remembered after.lastPath

/-- What a search found. -/
theorem found_of_findPath (hdistinct : (graph.states.map (·.id)).Nodup) {path : List StateId}
    (hfind : graph.findPath = .ok (after, some path)) : graph.Found graph.ErrorId path :=
  have hsearch := (graph.findPath_search.result hfind).1
  ((graph.detects_errorId.search_yields hdistinct).result hsearch).1

theorem nodup_lastPath_of_findPath {found : Option (List StateId)}
    (hdistinct : (graph.states.map (·.id)).Nodup) (hearlier : graph.lastPath.Nodup)
    (hfind : graph.findPath = .ok (after, found)) : after.lastPath.Nodup := by
  rw [(graph.findPath_search.result hfind).2.1]
  cases found with
  | none => exact List.nodup_nil
  | some path => exact (found_of_findPath hdistinct hfind).simple hearlier

/-- A remembered path repeats no number: by induction over the searches, each resumed from a part of
the path before it. -/
theorem Remembered.nodup {path : List StateId} (hpath : Remembered path) : path.Nodup := by
  induction hpath with
  | nothing => exact List.nodup_nil
  | search hdistinct _ hfind ih => exact nodup_lastPath_of_findPath hdistinct ih hfind

/-- Whatever position and path are left from earlier searches, a search finds a path just if one
leads from an initial state to an error state; a path that is found is such a path and repeats no
state, and it is a shortest one if the search starts anew. The search itself never faults, only the
check of a state for errors can. -/
theorem findPath_iff_exists (hdistinct : (graph.states.map (·.id)).Nodup)
    (hjoined : graph.Joined) (hlast : Remembered graph.lastPath) :
    Yields graph.CheckFault graph.findPath fun result ↦
      (result.2.isSome = true ↔ ∃ path, graph.PathTo graph.ErrorId path) ∧
      (∀ path, result.2 = some path → graph.PathTo graph.ErrorId path ∧ path.Nodup ∧
        (graph.resumeAt = 0 →
          ∀ other, graph.PathTo graph.ErrorId other → path.length ≤ other.length)) ∧
      Yields graph.CheckFault ({ graph with resumeAt := 0 } : AbstractGraph).findPath
        fun fresh ↦ fresh.2.isSome = result.2.isSome := by
  -- What a search says about paths does not depend on where it is resumed.
  have hexists : ∀ resumeAt, Yields graph.CheckFault
      ({ graph with resumeAt } : AbstractGraph).findPath fun result ↦
        (result.2.isSome = true ↔ ∃ path, graph.PathTo graph.ErrorId path) := by
    intro resumeAt
    have hdetects : ({ graph with resumeAt } : AbstractGraph).Detects graph.CheckFault
        graph.ErrorId := graph.detects_errorId
    refine (hdetects.search_yields hdistinct).bind fun found hfound ↦ ?_
    cases found with
    | none =>
      have hnone : ∀ path, ¬ graph.PathTo graph.ErrorId path := fun path hpath ↦
        hfound hjoined path ⟨hpath.start, hpath.linked, hpath.reached⟩
      simpa using hnone
    | some path =>
      have hpath := hfound.1.pathTo
      simpa using ⟨path, ⟨hpath.start, hpath.linked, hpath.reached⟩⟩
  have hiff := hexists graph.resumeAt
  refine (hiff.and (Yields.of_forall fun result hresult ↦ ?_)).mono fun result hresult ↦
    ⟨hresult.1, hresult.2, (hexists 0).mono fun fresh hfresh ↦ ?_⟩
  · rintro path hpath
    obtain ⟨searched, _⟩ := result
    subst hpath
    obtain ⟨hfound, hshortest⟩ := (graph.detects_errorId.search_yields hdistinct).result
      (graph.findPath_search.result hresult).1
    exact ⟨hfound.pathTo, hfound.simple hlast.nodup, fun hindex ↦ hshortest hindex hjoined⟩
  · rw [Bool.eq_iff_iff, hfresh, hresult.1]

theorem build_parallelRelay : build (relayAutomaton parallelEntries) (.uniform .empty) =
    .ok (relayGraph parallelEntries) := by
  decide +kernel

theorem findPath_parallelRelay : (relayGraph parallelEntries).findPath =
    .ok (searchedRelay parallelEntries, some relayPath) := by
  decide +kernel

/-- The graph of this relay after a search, with its first two states untouched. -/
def resumedRelay : AbstractGraph := { searchedRelay parallelEntries with resumeAt := 2 }

theorem remembered_resumedRelay : Remembered resumedRelay.lastPath := by
  have hdistinct : ((relayGraph parallelEntries).states.map (·.id)).Nodup := by decide
  have hremembered : Remembered (searchedRelay parallelEntries).lastPath :=
    .search hdistinct .nothing findPath_parallelRelay
  exact hremembered

/-- A search that is resumed from the second state of the relay finds the path again. -/
theorem findPath_iff_exists_relay :
    (resumedRelay.states.map (·.id)).Nodup ∧ resumedRelay.Joined ∧
      Remembered resumedRelay.lastPath ∧ ∃ searched path,
        resumedRelay.findPath = .ok (searched, some path) ∧
          resumedRelay.PathTo resumedRelay.ErrorId path ∧ path.Nodup := by
  have hdistinct : (resumedRelay.states.map (·.id)).Nodup := by decide
  have hjoined : resumedRelay.Joined := by
    unfold Joined
    decide
  have hfind : resumedRelay.findPath = .ok ({ resumedRelay.setHighlights relayPath true with
      lastPath := relayPath }, some relayPath) := by decide +kernel
  obtain ⟨-, hfound, -⟩ :=
    (findPath_iff_exists hdistinct hjoined remembered_resumedRelay).result hfind
  obtain ⟨hpath, hsimple, -⟩ := hfound _ rfl
  exact ⟨hdistinct, hjoined, remembered_resumedRelay, _, _, hfind, hpath, hsimple⟩

/-- In the graph of the ring a path of two states ends in an error state. The search does not get
there: it comes upon a state earlier for which the check for errors overflows. -/
theorem ring_search_overflows :
    AutomatonDraft.ring.build = .ok AutomatonDraft.ringAutomaton ∧
    build AutomatonDraft.ringAutomaton ringGraph.precisions = .ok ringGraph ∧
    (ringGraph.states.map (·.id)).Nodup ∧ ringGraph.Joined ∧ Remembered ringGraph.lastPath ∧
    ringGraph.PathTo ringGraph.ErrorId [⟨0⟩, ⟨2⟩] ∧
    ringGraph.findPath = .error (.boundOverflow (.atMost (-2 ^ 63)) (.atMost (-2 ^ 61))) := by
  refine ⟨AutomatonDraft.build_ring, build_ringGraph, by decide, ?_, .nothing,
    ⟨?_, ?_, ⟨2⟩, rfl, ?_⟩, by decide +kernel⟩
  · unfold Joined
    decide
  · exact ⟨_, List.mem_cons_self, rfl, rfl⟩
  · exact List.isChain_pair.mpr ⟨⟨0⟩, by decide⟩
  · unfold ErrorId
    decide +kernel

/-! ### Highlights -/

/-- Highlighting touches just the states of the path. -/
theorem setHighlights_states (graph : AbstractGraph) (path : List StateId) (highlighted : Bool) :
    (graph.setHighlights path highlighted).states = graph.states.map fun state ↦
      if state.id ∈ path then { state with highlighted } else state := by
  unfold setHighlights
  induction path generalizing graph with
  | nil => simp
  | cons id rest ih =>
    rw [List.foldl_cons, ih, setHighlight, List.map_map]
    refine List.map_congr_left fun state _ ↦ ?_
    by_cases hid : state.id = id <;> by_cases hrest : state.id ∈ rest <;> simp [hid, hrest]

theorem setHighlights_lastPath (graph : AbstractGraph) (path : List StateId)
    (highlighted : Bool) : (graph.setHighlights path highlighted).lastPath = graph.lastPath := by
  unfold setHighlights
  exact List.foldlRecOn (motive := fun (current : AbstractGraph) ↦
    current.lastPath = graph.lastPath) path _ rfl
    fun _ hcurrent _ _ ↦ hcurrent

/-- The states that a search highlights in an unmarked graph are those of the path it found. -/
theorem Unmarked.highlighted_iff (hunmarked : graph.Unmarked) {path : List StateId}
    (hpresent : ∀ id ∈ path, graph.hasState id = true) (id : StateId) :
    (∃ state ∈ (graph.setHighlights path true).states,
      state.id = id ∧ state.highlighted = true) ↔ id ∈ path := by
  rw [setHighlights_states]
  constructor
  · rintro ⟨_, hmem, rfl, hhighlighted⟩
    obtain ⟨state, hstate, rfl⟩ := List.mem_map.mp hmem
    by_cases hid : state.id ∈ path
    · simp [hid]
    · simp [hid, hunmarked state hstate] at hhighlighted
  · intro hid
    obtain ⟨state, hstate, rfl⟩ := List.mem_map.mp (hasState_iff.mp (hpresent id hid))
    exact ⟨_, List.mem_map_of_mem hstate, by simp [hid], by simp [hid]⟩

/-! ### Refining -/

/-- States of a path without repetition that stand before the first split were not split. -/
theorem Tracks.not_mem_split {path : List StateId} {done : List (Nat × Formula)}
    {progress : SplitProgress} (htracks : graph.Tracks path done progress) (hsimple : path.Nodup)
    {id : StateId} (hid : id ∈ path.take progress.first) : id ∉ progress.split := by
  intro hsplit
  obtain ⟨position, -, hat, hfirst⟩ := htracks.placed id hsplit
  obtain ⟨index, hindex, rfl⟩ := List.mem_take_iff_getElem.mp hid
  have hsame := (List.getElem?_inj (by omega) hsimple).mp
    ((List.getElem?_eq_getElem (by omega)).trans hat.symm)
  omega

/-- A search can be resumed: the states of the last path before the position to resume from, which
is below the given count, are still a path from an initial state. -/
structure Resumable (graph : AbstractGraph) (count : Nat) : Prop where
  unmarked : graph.Unmarked
  lt_count : graph.resumeAt < count
  count_le : count ≤ graph.lastPath.length
  present : ∀ id ∈ graph.lastPath.take graph.resumeAt, graph.hasState id = true
  initial : ∀ first, (graph.lastPath.take graph.resumeAt).head? = some first →
    ∃ state, graph.state? first = some state ∧ state.initial = true
  linked : (graph.lastPath.take graph.resumeAt).IsChain graph.Linked
  intact : 0 < graph.resumeAt →
    graph.isIntact (graph.lastPath.take graph.resumeAt) = true

theorem Numbered.alike (hnumbered : graph.Numbered) (halike : graph.Alike after) :
    after.Numbered := by
  refine ⟨?_, fun state hstate ↦ ?_⟩
  · rw [halike.ids_eq]
    exact hnumbered.distinct
  · obtain ⟨former, hformer, hsame⟩ := halike.exists_mem hstate
    rw [halike.nextId_eq, ← hsame.id]
    exact hnumbered.fresh former hformer

/-- What is left of a path before the first split is still a path of states. -/
theorem Tracks.stem {path : List StateId} {done : List (Nat × Formula)}
    {progress : SplitProgress} (htracks : graph.Tracks path done progress) (hsimple : path.Nodup)
    (hpresent : ∀ id ∈ path, graph.hasState id = true) (hstart : graph.StartsInitial path)
    (hlinked : path.IsChain graph.Linked) :
    (∀ id ∈ path.take progress.first, progress.graph.hasState id = true) ∧
      (0 < progress.first → progress.graph.StartsInitial (path.take progress.first)) ∧
      (path.take progress.first).IsChain progress.graph.Linked := by
  have hunsplit : ∀ id ∈ path.take progress.first, id ∉ progress.split :=
    fun id hid ↦ htracks.not_mem_split hsimple hid
  refine ⟨fun id hid ↦ ?_, fun hfirst ↦ ?_, ?_⟩
  · obtain ⟨state, hstate, rfl⟩ := List.mem_map.mp
      (hasState_iff.mp (hpresent id (List.mem_of_mem_take hid)))
    exact hasState_iff.mpr (List.mem_map_of_mem (htracks.kept state hstate (hunsplit _ hid)))
  · obtain ⟨state, hstate, hhead, hinitial⟩ := hstart
    have hfront : (path.take progress.first).head? = some state.id := by
      rw [List.head?_take, if_neg (by omega), hhead]
    refine ⟨state, htracks.kept state hstate (hunsplit _ ?_), hfront, hinitial⟩
    exact List.mem_of_mem_head? hfront
  · refine List.IsChain.imp_of_mem_imp ?_ (hlinked.take progress.first)
    rintro source target hsource htarget ⟨edge, hedge⟩
    exact ⟨edge, htracks.linked _ hedge (hunsplit _ hsource) (hunsplit _ htarget)⟩

/-- After a refinement by an interpolant that splits something, at positions below the given count,
the search can be resumed. -/
theorem resumable_of_splitAlong (hnumbered : graph.Numbered) {path : List StateId}
    (hlast : graph.lastPath = path) (hsimple : path.Nodup)
    (hpresent : ∀ id ∈ path, graph.hasState id = true) (hstart : graph.StartsInitial path)
    (hlinked : path.IsChain graph.Linked)
    (hmarked : ∀ state ∈ graph.states, state.highlighted = true → state.id ∈ path)
    {interpolant : Interpolant} {first count : Nat}
    (hpositions : ∀ position ∈ interpolant.formulas, position.1 < count)
    (hcount : count ≤ path.length)
    (hsplit : graph.splitAlong path interpolant = .ok (after, first))
    (hgrown : graph.states.length < after.states.length) {refined : AbstractGraph}
    (hrefined : refined = { after.setHighlights path false with resumeAt := first }) :
    refined.Numbered ∧ refined.Resumable count := by
  obtain ⟨progress, htracks, rfl, rfl⟩ := tracks_of_splitAlong hnumbered hsplit
  have halike : progress.graph.Alike refined := by
    rw [hrefined]
    exact (alike_setHighlights progress.graph path false).remember _ _
  have hpath : refined.lastPath = path := by
    rw [hrefined, ← hlast, ← htracks.lastPath_eq]
    exact setHighlights_lastPath progress.graph _ false
  have hindex : refined.resumeAt = progress.first := by rw [hrefined]
  have hnumberedAfter := htracks.numbered.alike halike
  obtain ⟨hstates, hinitial, hchain⟩ := htracks.stem hsimple hpresent hstart hlinked
  have hkept : ∀ id ∈ path.take progress.first, refined.hasState id = true := by
    intro id hid
    rw [hasState_iff, halike.ids_eq]
    exact hasState_iff.mp (hstates id hid)
  rw [← halike.linked_eq] at hchain
  refine ⟨hnumberedAfter, ?_⟩
  constructor
  case unmarked =>
    intro state hstate
    have hmap : refined.states = (progress.graph.setHighlights path false).states := by
      rw [hrefined]
    rw [hmap, setHighlights_states] at hstate
    obtain ⟨former, hformer, rfl⟩ := List.mem_map.mp hstate
    by_cases hid : former.id ∈ path
    · simp [hid]
    · rw [if_neg hid]
      rcases htracks.plain former hformer with hbefore | hplain
      · exact Bool.eq_false_iff.mpr fun hhighlighted ↦ hid (hmarked former hbefore hhighlighted)
      · exact hplain
  case lt_count =>
    have hsome : progress.split ≠ [] := by
      intro hnone
      rw [htracks.untouched hnone] at hgrown
      exact lt_irrefl _ hgrown
    obtain ⟨id, hid⟩ := List.exists_mem_of_ne_nil _ hsome
    obtain ⟨position, hposition, -, hfirst⟩ := htracks.placed id hid
    rw [hindex]
    exact hfirst.trans_lt (hpositions position hposition)
  case count_le => rwa [hpath]
  all_goals rw [hpath, hindex]
  case present => exact hkept
  case initial =>
    intro id hid
    have hpositive : 0 < progress.first := by
      by_contra hzero
      simp [Nat.le_zero.mp (not_lt.mp hzero)] at hid
    obtain ⟨state, hstate, hhead, hflag⟩ := (hinitial hpositive).alike halike
    obtain rfl : id = state.id := Option.some.inj (hid.symm.trans hhead)
    exact ⟨state, (state?_eq_some_iff hnumberedAfter.distinct).mpr ⟨hstate, rfl⟩, hflag⟩
  case linked => exact hchain
  case intact =>
    intro hpositive
    exact (isIntact_iff hnumberedAfter.distinct).mpr
      ⟨hkept, (hinitial hpositive).alike halike, hchain⟩

end TimedSafety.AbstractGraph
