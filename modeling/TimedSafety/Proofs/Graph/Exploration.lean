import Mathlib.Data.List.Chain
import TimedSafety.Graph.Search
import TimedSafety.Proofs.Graph.Exact

/-!
The search explores a graph breadth first, whatever numbers it looks for. A route leads from a root
along transitions. While the search explores, every state is unseen, explored or queued, and no
route is shorter than the queued trail to the same state (`Frontier`). So the trail that is found is
a shortest route to a number that is looked for, and if none is found then no route leads to one.

A resumed search continues the untouched part of the last path, which it does not enter again. What
it finds is a path from an initial state too; if it finds nothing, all initial states are searched
from (`Detects.search_yields`).
-/

set_option autoImplicit false

namespace TimedSafety.AbstractGraph

variable {may : Fault → Prop} {graph : AbstractGraph} {goal : StateId → Prop}

/-- There is a transition from one number to the other. -/
def Linked (graph : AbstractGraph) (source target : StateId) : Prop :=
  ∃ edge, ⟨source, edge, target⟩ ∈ graph.transitions

theorem mem_successors_iff {source target : StateId} :
    target ∈ (graph.successors source).map (·.2) ↔ graph.Linked source target := by
  simp only [successors, List.map_map, List.mem_map, List.mem_filter, Linked]
  constructor
  · rintro ⟨⟨start, edge, next⟩, ⟨hmem, hsource⟩, rfl⟩
    obtain rfl : start = source := of_decide_eq_true hsource
    exact ⟨edge, hmem⟩
  · rintro ⟨edge, hmem⟩
    exact ⟨_, ⟨hmem, by simp⟩, rfl⟩

theorem edgeBetween_isSome_iff {source target : StateId} :
    (graph.edgeBetween source target).isSome ↔ graph.Linked source target := by
  rw [← mem_successors_iff, edgeBetween, Option.isSome_map, List.find?_isSome, List.mem_map]
  simp

theorem isConnected_iff {path : List StateId} :
    graph.isConnected path = true ↔ path.IsChain graph.Linked := by
  induction path with
  | nil => simp [isConnected]
  | cons source rest ih =>
    cases rest with
    | nil => simp [isConnected]
    | cons target rest =>
      rw [isConnected, Bool.and_eq_true, ih, List.isChain_cons_cons, edgeBetween_isSome_iff]

/-- The check for errors accepts just the numbers that are looked for. -/
def Detects (graph : AbstractGraph) (may : Fault → Prop) (goal : StateId → Prop) : Prop :=
  ∀ id, Yields may (graph.isErrorState id) fun error ↦ (error = true ↔ goal id)

/-! ### Expanding -/

/-- What an expansion leaves unseen. -/
theorem expand_unseen {ancestors targets unseen : List StateId} (hunseen : unseen.Nodup) :
    (expand ancestors targets unseen).2 = unseen.filter (· ∉ targets) := by
  induction targets generalizing unseen with
  | nil => simp [expand]
  | cons next rest ih =>
    by_cases hnext : next ∈ unseen
    · simp only [expand, if_pos hnext]
      rw [ih (hunseen.erase next), hunseen.erase_eq_filter, List.filter_filter]
      refine List.filter_congr fun id _ ↦ ?_
      by_cases hid : id = next <;> simp [hid]
    · simp only [expand, if_neg hnext]
      rw [ih hunseen]
      refine List.filter_congr fun id hid ↦ ?_
      have hne : id ≠ next := fun heq ↦ hnext (heq ▸ hid)
      simp [hne]

/-- What an expansion queues: the trails to the targets that were unseen. -/
theorem mem_expand_iff {ancestors targets unseen : List StateId} (hunseen : unseen.Nodup)
    {trail : Trail} : trail ∈ (expand ancestors targets unseen).1 ↔
      trail.ancestors = ancestors ∧ trail.state ∈ targets ∧ trail.state ∈ unseen := by
  induction targets generalizing unseen with
  | nil => simp [expand]
  | cons next rest ih =>
    by_cases hnext : next ∈ unseen
    · simp only [expand, if_pos hnext, List.mem_cons]
      rw [ih (hunseen.erase next), hunseen.mem_erase_iff]
      obtain ⟨state, before⟩ := trail
      by_cases hstate : state = next
      · subst hstate
        simp [hnext]
      · simp [hstate]
    · simp only [expand, if_neg hnext, List.mem_cons]
      rw [ih hunseen]
      have hne : trail.state ∈ unseen → trail.state ≠ next := fun hmem heq ↦ hnext (heq ▸ hmem)
      constructor
      · rintro ⟨hbefore, htarget, hmem⟩
        exact ⟨hbefore, Or.inr htarget, hmem⟩
      · rintro ⟨hbefore, htarget, hmem⟩
        exact ⟨hbefore, htarget.resolve_left (hne hmem), hmem⟩

/-! ### Routes -/

/-- The trail leads from a root along transitions, within a set of numbers. -/
inductive Route (graph : AbstractGraph) (roots whole : List StateId) : Trail → Prop
  | root {id : StateId} (hroot : id ∈ roots) (hwhole : id ∈ whole) :
      Route graph roots whole ⟨id, []⟩
  | step {trail : Trail} {next : StateId} (hroute : Route graph roots whole trail)
      (hlinked : graph.Linked trail.state next) (hwhole : next ∈ whole) :
      Route graph roots whole ⟨next, trail.state :: trail.ancestors⟩

theorem Route.mem {roots whole : List StateId} {trail : Trail}
    (hroute : graph.Route roots whole trail) {id : StateId}
    (hid : id ∈ trail.state :: trail.ancestors) : id ∈ whole := by
  induction hroute with
  | root _ hwhole => rwa [List.mem_singleton.mp hid]
  | step _ _ hwhole ih =>
    rcases List.mem_cons.mp hid with rfl | hrest
    · exact hwhole
    · exact ih hrest

/-- The trail is a shortest route to a number that is looked for, and repeats none. -/
structure Nearest (graph : AbstractGraph) (goal : StateId → Prop) (roots whole : List StateId)
    (trail : Trail) : Prop where
  route : graph.Route roots whole trail
  simple : (trail.state :: trail.ancestors).Nodup
  reached : goal trail.state
  shortest : ∀ other, graph.Route roots whole other → goal other.state →
    trail.ancestors.length ≤ other.ancestors.length

/-! ### Exploring -/

/-- A queued trail is a shortest route to its state, through seen numbers and without repetition. -/
structure Queued (graph : AbstractGraph) (roots whole unseen : List StateId) (trail : Trail) :
    Prop where
  route : graph.Route roots whole trail
  simple : (trail.state :: trail.ancestors).Nodup
  seen : ∀ id ∈ trail.state :: trail.ancestors, id ∉ unseen
  shortest : ∀ other, graph.Route roots whole other → other.state = trail.state →
    trail.ancestors.length ≤ other.ancestors.length

/-- What holds while a search explores. Every number is unseen, explored or queued. Those that are
explored are not looked for, and transitions lead from them to seen ones. -/
structure Frontier (graph : AbstractGraph) (goal : StateId → Prop) (roots whole : List StateId)
    (explored : StateId → Prop) (queue : List Trail) (unseen : List StateId) : Prop where
  distinct : unseen.Nodup
  within : ∀ id ∈ unseen, id ∈ whole
  started : ∀ root ∈ roots, root ∉ unseen
  closed : ∀ id, explored id → ¬ goal id ∧ id ∉ unseen ∧
    ∀ next, graph.Linked id next → next ∉ unseen
  covered : ∀ id ∈ whole, id ∈ unseen ∨ explored id ∨ ∃ trail ∈ queue, trail.state = id
  queued : ∀ trail ∈ queue, graph.Queued roots whole unseen trail
  /-- Trails are queued by their lengths, which differ by one at most. -/
  ordered : queue.Pairwise fun first second ↦
    first.ancestors.length ≤ second.ancestors.length ∧
      second.ancestors.length ≤ first.ancestors.length + 1

namespace Frontier

variable {roots whole unseen : List StateId} {explored : StateId → Prop} {queue : List Trail}
  {trail : Trail}

/-- At the start the roots are queued. -/
theorem start (hwhole : whole.Nodup) : graph.Frontier goal roots whole (fun _ ↦ False)
    (expand [] roots whole).1 (expand [] roots whole).2 := by
  have hunseen : ∀ id, id ∈ (expand [] roots whole).2 ↔ id ∈ whole ∧ id ∉ roots := by
    simp [expand_unseen hwhole]
  have hroot : ∀ trail ∈ (expand [] roots whole).1,
      trail.ancestors = [] ∧ trail.state ∈ roots ∧ trail.state ∈ whole :=
    fun trail ↦ (mem_expand_iff hwhole).mp
  refine ⟨?_, fun id hid ↦ ((hunseen id).mp hid).1, ?_, fun _ ↦ False.elim, ?_, ?_, ?_⟩
  · rw [expand_unseen hwhole]
    exact hwhole.filter _
  · exact fun root hmem hid ↦ ((hunseen root).mp hid).2 hmem
  · intro id hid
    by_cases hmem : id ∈ roots
    · exact Or.inr (Or.inr ⟨⟨id, []⟩, (mem_expand_iff hwhole).mpr ⟨rfl, hmem, hid⟩, rfl⟩)
    · exact Or.inl ((hunseen id).mpr ⟨hid, hmem⟩)
  · rintro ⟨state, ancestors⟩ htrail
    obtain ⟨rfl, hmem, hwithin⟩ := hroot _ htrail
    refine ⟨.root hmem hwithin, List.nodup_singleton _, fun id hid ↦ ?_, by simp⟩
    rw [List.mem_singleton.mp hid, hunseen]
    exact fun hboth ↦ hboth.2 hmem
  · refine List.Pairwise.imp_of_mem ?_ (List.pairwise_of_forall fun _ _ ↦ trivial)
    intro first second hfirst hsecond _
    simp [(hroot first hfirst).1, (hroot second hsecond).1]

/-- What is seen is explored or queued. -/
theorem explored_or_queued (hfrontier : graph.Frontier goal roots whole explored queue unseen)
    {id : StateId} (hwhole : id ∈ whole) (hseen : id ∉ unseen) :
    explored id ∨ ∃ trail ∈ queue, trail.state = id :=
  (hfrontier.covered id hwhole).resolve_left hseen

/-- A route that leaves the explored numbers crosses the queue. -/
theorem crosses (hfrontier : graph.Frontier goal roots whole explored queue unseen)
    (hroute : graph.Route roots whole trail) :
    explored trail.state ∨ (∃ queued ∈ queue, queued.state = trail.state) ∨
      ∃ queued ∈ queue, queued.ancestors.length < trail.ancestors.length := by
  induction hroute with
  | @root id hroot hwhole =>
    exact (hfrontier.explored_or_queued hwhole (hfrontier.started id hroot)).imp_right Or.inl
  | @step trail next hroute hlinked hwhole ih =>
    rcases ih with hexplored | ⟨queued, hqueued, hstate⟩ | ⟨queued, hqueued, hshorter⟩
    · have hseen := (hfrontier.closed _ hexplored).2.2 next hlinked
      exact (hfrontier.explored_or_queued hwhole hseen).imp_right Or.inl
    · have hle := (hfrontier.queued queued hqueued).shortest trail hroute hstate.symm
      exact Or.inr (Or.inr ⟨queued, hqueued, Nat.lt_succ_of_le hle⟩)
    · exact Or.inr (Or.inr ⟨queued, hqueued, hshorter.trans (Nat.lt_succ_self _)⟩)

theorem head_le {waiting : List Trail}
    (hfrontier : graph.Frontier goal roots whole explored (trail :: waiting) unseen)
    {queued : Trail} (hqueued : queued ∈ trail :: waiting) :
    trail.ancestors.length ≤ queued.ancestors.length := by
  rcases List.mem_cons.mp hqueued with rfl | hwaiting
  · exact le_rfl
  · exact (List.rel_of_pairwise_cons hfrontier.ordered hwaiting).1

/-- Routes to unseen numbers are longer than the first trail of the queue. -/
theorem head_lt {waiting : List Trail}
    (hfrontier : graph.Frontier goal roots whole explored (trail :: waiting) unseen)
    {other : Trail} (hroute : graph.Route roots whole other) (hunseen : other.state ∈ unseen) :
    trail.ancestors.length < other.ancestors.length := by
  rcases hfrontier.crosses hroute with hexplored | ⟨queued, hqueued, hstate⟩ |
    ⟨queued, hqueued, hshorter⟩
  · exact absurd hunseen (hfrontier.closed _ hexplored).2.1
  · rw [← hstate] at hunseen
    exact absurd hunseen ((hfrontier.queued queued hqueued).seen _ List.mem_cons_self)
  · exact (hfrontier.head_le hqueued).trans_lt hshorter

/-- If the first trail of the queue ends at a number that is looked for, it is a nearest one. -/
theorem nearest {waiting : List Trail}
    (hfrontier : graph.Frontier goal roots whole explored (trail :: waiting) unseen)
    (hgoal : goal trail.state) : graph.Nearest goal roots whole trail := by
  have hqueued := hfrontier.queued trail List.mem_cons_self
  refine ⟨hqueued.route, hqueued.simple, hgoal, fun other hroute hreached ↦ ?_⟩
  rcases hfrontier.crosses hroute with hexplored | ⟨queued, hmem, hstate⟩ | ⟨queued, hmem, hshorter⟩
  · exact absurd hreached (hfrontier.closed _ hexplored).1
  · exact (hfrontier.head_le hmem).trans
      ((hfrontier.queued queued hmem).shortest other hroute hstate.symm)
  · exact (hfrontier.head_le hmem).trans hshorter.le

/-- If nothing is queued, no route leads to a number that is looked for. -/
theorem not_goal (hfrontier : graph.Frontier goal roots whole explored [] unseen)
    (hroute : graph.Route roots whole trail) : ¬ goal trail.state := by
  rcases hfrontier.crosses hroute with hexplored | ⟨queued, hqueued, -⟩ | ⟨queued, hqueued, -⟩
  · exact (hfrontier.closed _ hexplored).1
  · exact absurd hqueued List.not_mem_nil
  · exact absurd hqueued List.not_mem_nil

/-- A trail to an unseen successor can be queued. -/
theorem queued_step {waiting : List Trail}
    (hfrontier : graph.Frontier goal roots whole explored (trail :: waiting) unseen)
    {next : StateId} (hlinked : graph.Linked trail.state next) (hunseen : next ∈ unseen)
    {remaining : List StateId} (hremaining : ∀ id ∈ remaining, id ∈ unseen)
    (hnext : next ∉ remaining) :
    graph.Queued roots whole remaining ⟨next, trail.state :: trail.ancestors⟩ := by
  have htrail := hfrontier.queued trail List.mem_cons_self
  refine ⟨htrail.route.step hlinked (hfrontier.within next hunseen), ?_, ?_, ?_⟩
  · exact List.nodup_cons.mpr ⟨fun hmem ↦ htrail.seen next hmem hunseen, htrail.simple⟩
  · intro id hid
    rcases List.mem_cons.mp hid with rfl | hrest
    · exact hnext
    · exact fun hmem ↦ htrail.seen id hrest (hremaining id hmem)
  · rintro other hroute rfl
    exact hfrontier.head_lt hroute hunseen

/-- Taking up the first trail of the queue, if it does not end at a number that is looked for. -/
theorem step {waiting : List Trail}
    (hfrontier : graph.Frontier goal roots whole explored (trail :: waiting) unseen)
    (hgoal : ¬ goal trail.state) {expansion : List Trail × List StateId}
    (hexpansion : expansion = expand (trail.state :: trail.ancestors)
      ((graph.successors trail.state).map (·.2)) unseen) :
    graph.Frontier goal roots whole (fun id ↦ explored id ∨ id = trail.state)
      (waiting ++ expansion.1) expansion.2 := by
  have hqueue : ∀ other, other ∈ expansion.1 ↔ other.ancestors = trail.state :: trail.ancestors ∧
      graph.Linked trail.state other.state ∧ other.state ∈ unseen := by
    intro other
    rw [hexpansion, mem_expand_iff hfrontier.distinct, mem_successors_iff]
  have hunseen : ∀ id, id ∈ expansion.2 ↔ id ∈ unseen ∧ ¬ graph.Linked trail.state id := by
    simp [hexpansion, expand_unseen hfrontier.distinct, ← mem_successors_iff]
  have hless : ∀ id ∈ expansion.2, id ∈ unseen := fun id hid ↦ ((hunseen id).mp hid).1
  refine ⟨?_, fun id hid ↦ hfrontier.within id (hless id hid),
    fun root hroot hid ↦ hfrontier.started root hroot (hless root hid), ?_, ?_, ?_, ?_⟩
  · rw [hexpansion, expand_unseen hfrontier.distinct]
    exact hfrontier.distinct.filter _
  · rintro id (hexplored | rfl)
    · obtain ⟨hother, hseen, hlinks⟩ := hfrontier.closed id hexplored
      exact ⟨hother, fun hid ↦ hseen (hless id hid),
        fun next hlinked hid ↦ hlinks next hlinked (hless next hid)⟩
    · have hseen := (hfrontier.queued trail List.mem_cons_self).seen _ List.mem_cons_self
      exact ⟨hgoal, fun hid ↦ hseen (hless _ hid),
        fun next hlinked hid ↦ ((hunseen next).mp hid).2 hlinked⟩
  · intro id hwhole
    rcases hfrontier.covered id hwhole with hid | hexplored | ⟨queued, hqueued, rfl⟩
    · by_cases hlinked : graph.Linked trail.state id
      · refine Or.inr (Or.inr ⟨⟨id, trail.state :: trail.ancestors⟩, ?_, rfl⟩)
        exact List.mem_append_right _ ((hqueue _).mpr ⟨rfl, hlinked, hid⟩)
      · exact Or.inl ((hunseen id).mpr ⟨hid, hlinked⟩)
    · exact Or.inr (Or.inl (Or.inl hexplored))
    · rcases List.mem_cons.mp hqueued with rfl | hwaiting
      · exact Or.inr (Or.inl (Or.inr rfl))
      · exact Or.inr (Or.inr ⟨queued, List.mem_append_left _ hwaiting, rfl⟩)
  · refine List.forall_mem_append.mpr ⟨fun queued hqueued ↦ ?_, ?_⟩
    · obtain ⟨hroute, hsimple, hseen, hshortest⟩ :=
        hfrontier.queued queued (List.mem_cons_of_mem _ hqueued)
      exact ⟨hroute, hsimple, fun id hid hmem ↦ hseen id hid (hless id hmem), hshortest⟩
    · rintro ⟨next, ancestors⟩ hnext
      obtain ⟨rfl, hlinked, hmem⟩ := (hqueue _).mp hnext
      exact hfrontier.queued_step hlinked hmem hless fun hid ↦ ((hunseen next).mp hid).2 hlinked
  · -- What waits is as long as the trail taken up or longer by one, and so is what is added.
    obtain ⟨hfirst, hwaiting⟩ := List.pairwise_cons.mp hfrontier.ordered
    have hlength : ∀ other ∈ expansion.1, other.ancestors.length = trail.ancestors.length + 1 := by
      intro other hother
      rw [((hqueue other).mp hother).1, List.length_cons]
    refine List.pairwise_append.mpr ⟨hwaiting, ?_, fun first hmem second hsecond ↦ ?_⟩
    · refine List.Pairwise.imp_of_mem ?_ (List.pairwise_of_forall fun _ _ ↦ trivial)
      intro first second hleft hright _
      rw [hlength first hleft, hlength second hright]
      omega
    · have hbounds := hfirst first hmem
      rw [hlength second hsecond]
      omega

end Frontier

/-- Exploring ends at a nearest number that is looked for, or no route leads to one. -/
theorem Detects.explore_yields (hdetects : graph.Detects may goal) {roots whole : List StateId}
    {queue : List Trail} {unseen : List StateId}
    (hfrontier : ∃ explored, graph.Frontier goal roots whole explored queue unseen) :
    Yields may (graph.explore queue unseen) fun found ↦ found.elim
      (∀ trail, graph.Route roots whole trail → ¬ goal trail.state)
      (graph.Nearest goal roots whole) := by
  fun_induction graph.explore queue unseen with
  | case1 unseen =>
    obtain ⟨explored, hfrontier⟩ := hfrontier
    exact fun trail hroute ↦ hfrontier.not_goal hroute
  | case2 unseen trail waiting fault hfault => exact (hdetects trail.state).fault hfault
  | case3 unseen trail waiting herror =>
    obtain ⟨explored, hfrontier⟩ := hfrontier
    exact hfrontier.nearest (((hdetects trail.state).result herror).mp rfl)
  | case4 unseen trail waiting herror expansion ih =>
    obtain ⟨explored, hfrontier⟩ := hfrontier
    have hgoal : ¬ goal trail.state := by
      have hiff := (hdetects trail.state).result herror
      simpa using hiff
    exact ih ⟨_, hfrontier.step hgoal rfl⟩

/-! ### Paths -/

/-- The path starts at an initial state. -/
def StartsInitial (graph : AbstractGraph) (path : List StateId) : Prop :=
  ∃ state ∈ graph.states, path.head? = some state.id ∧ state.initial = true

/-- The path starts at an initial state, follows transitions and ends at a number that is looked
for. -/
structure PathTo (graph : AbstractGraph) (goal : StateId → Prop) (path : List StateId) : Prop where
  start : graph.StartsInitial path
  linked : path.IsChain graph.Linked
  reached : ∃ last, path.getLast? = some last ∧ goal last

/-- Transitions lead between states. -/
def Joined (graph : AbstractGraph) : Prop :=
  ∀ transition ∈ graph.transitions,
    graph.hasState transition.source = true ∧ graph.hasState transition.target = true

theorem hasState_iff {id : StateId} :
    graph.hasState id = true ↔ id ∈ graph.states.map (·.id) := by
  simp [hasState, state?]

theorem Trail.path_extend (trail : Trail) (next : StateId) :
    (Trail.mk next (trail.state :: trail.ancestors)).path = trail.path ++ [next] := by
  simp [Trail.path]

theorem Trail.getLast?_path (trail : Trail) : trail.path.getLast? = some trail.state := by
  simp [Trail.path]

theorem Trail.length_path (trail : Trail) : trail.path.length = trail.ancestors.length + 1 := by
  simp [Trail.path]

theorem StartsInitial.append {path : List StateId} (hstart : graph.StartsInitial path)
    (more : List StateId) : graph.StartsInitial (path ++ more) := by
  obtain ⟨state, hstate, hhead, hinitial⟩ := hstart
  refine ⟨state, hstate, ?_, hinitial⟩
  rw [List.head?_append, hhead]
  rfl

/-- A route prolongs a stem that leads from an initial state to each of the roots. -/
theorem Route.prolongs {stem roots whole : List StateId} {trail : Trail}
    (hroute : graph.Route roots whole trail)
    (hroots : ∀ root ∈ roots, (stem ++ [root]).IsChain graph.Linked ∧
      graph.StartsInitial (stem ++ [root])) :
    (stem ++ trail.path).IsChain graph.Linked ∧ graph.StartsInitial (stem ++ trail.path) := by
  induction hroute with
  | @root id hroot _ => exact hroots id hroot
  | @step trail next _ hlinked _ ih =>
    rw [Trail.path_extend, ← List.append_assoc]
    refine ⟨ih.1.append (List.isChain_singleton next) ?_, ih.2.append [next]⟩
    intro last hlast first hfirst
    rw [List.getLast?_append, Trail.getLast?_path] at hlast
    obtain rfl : trail.state = last := by simpa using hlast
    obtain rfl : next = first := by simpa using hfirst
    exact hlinked

/-- Where transitions lead between states, every path from an initial state is a route. -/
theorem Joined.route (hjoined : graph.Joined) {trail : Trail}
    (hstart : graph.StartsInitial trail.path) (hlinked : trail.path.IsChain graph.Linked) :
    graph.Route (graph.initialStates.map (·.id)) (graph.states.map (·.id)) trail := by
  obtain ⟨id, ancestors⟩ := trail
  induction ancestors generalizing id with
  | nil =>
    obtain ⟨state, hstate, hhead, hinitial⟩ := hstart
    obtain rfl : id = state.id := by simpa [Trail.path] using hhead
    refine .root ?_ (List.mem_map_of_mem hstate)
    exact List.mem_map_of_mem (List.mem_filter.mpr ⟨hstate, hinitial⟩)
  | cons before rest ih =>
    rw [Trail.path_extend ⟨before, rest⟩ id] at hstart hlinked
    obtain ⟨hbefore, -, hlast⟩ := List.isChain_append.mp hlinked
    obtain ⟨edge, hedge⟩ := hlast before (Trail.getLast?_path ⟨before, rest⟩) id rfl
    obtain ⟨state, hstate, hhead, hinitial⟩ := hstart
    have hne : (Trail.mk before rest).path ≠ [] := by simp [Trail.path]
    rw [List.head?_append_of_ne_nil _ hne] at hhead
    exact .step (ih before ⟨state, hstate, hhead, hinitial⟩ hbefore) ⟨edge, hedge⟩
      (hasState_iff.mp (hjoined _ hedge).2)

/-- A path to a number that is looked for is a route of the same length. -/
theorem PathTo.exists_route {path : List StateId} (hpath : graph.PathTo goal path)
    (hjoined : graph.Joined) : ∃ trail, trail.path = path ∧ goal trail.state ∧
      graph.Route (graph.initialStates.map (·.id)) (graph.states.map (·.id)) trail := by
  obtain ⟨hstart, hlinked, last, hlast, hgoal⟩ := hpath
  have hsplit : (Trail.mk last path.dropLast.reverse).path = path := by
    simpa [Trail.path] using List.dropLast_append_getLast? last hlast
  exact ⟨_, hsplit, hgoal, hjoined.route (by rwa [hsplit]) (by rwa [hsplit])⟩

/-! ### Searching -/

/-- A search that continues a stem finds a nearest number that is looked for, outside the stem, or
no route leads to one. -/
theorem Detects.searchFrom_yields (hdetects : graph.Detects may goal)
    (hdistinct : (graph.states.map (·.id)).Nodup) (stem roots : List StateId) :
    Yields may (graph.searchFrom stem roots) fun found ↦ found.elim
      (∀ trail, graph.Route roots ((graph.states.map (·.id)).filter (· ∉ stem)) trail →
        ¬ goal trail.state)
      fun path ↦ ∃ trail, path = stem ++ trail.path ∧
        graph.Nearest goal roots ((graph.states.map (·.id)).filter (· ∉ stem)) trail := by
  refine (hdetects.explore_yields ⟨_, Frontier.start (hdistinct.filter _)⟩).bind ?_
  rintro (_ | trail) hfound
  · exact hfound
  · exact ⟨trail, rfl, hfound⟩

/-- What is left untouched of the last path leads from an initial state along transitions. -/
theorem isIntact_iff {stem : List StateId} (hdistinct : (graph.states.map (·.id)).Nodup) :
    graph.isIntact stem = true ↔ (∀ id ∈ stem, graph.hasState id = true) ∧
      graph.StartsInitial stem ∧ stem.IsChain graph.Linked := by
  cases stem with
  | nil => simp [isIntact, StartsInitial]
  | cons first rest =>
    have hhead : (graph.state? first).any (·.initial) = true ↔
        graph.StartsInitial (first :: rest) := by
      simp only [Option.any_eq_true, state?_eq_some_iff hdistinct, StartsInitial, List.head?_cons,
        Option.some.injEq]
      constructor
      · rintro ⟨state, ⟨hmem, hid⟩, hinitial⟩
        exact ⟨state, hmem, hid.symm, hinitial⟩
      · rintro ⟨state, hmem, hid, hinitial⟩
        exact ⟨state, ⟨hmem, hid.symm⟩, hinitial⟩
    rw [isIntact, Bool.and_eq_true, Bool.and_eq_true, isConnected_iff, List.all_eq_true, and_assoc,
      List.head?_cons, hhead]

theorem resume_eq_none (hindex : graph.resumeAt = 0) : graph.resume = .ok none := by
  simp [resume, hindex]

/-- What a search may find: a path through states to a number that is looked for. It repeats no
number if the last path did not. -/
structure Found (graph : AbstractGraph) (goal : StateId → Prop) (path : List StateId) : Prop where
  pathTo : graph.PathTo goal path
  present : ∀ id ∈ path, graph.hasState id = true
  simple : graph.lastPath.Nodup → path.Nodup

theorem Nearest.found {stem roots : List StateId} {trail : Trail}
    (hnearest : graph.Nearest goal roots ((graph.states.map (·.id)).filter (· ∉ stem)) trail)
    (hroots : ∀ root ∈ roots, (stem ++ [root]).IsChain graph.Linked ∧
      graph.StartsInitial (stem ++ [root]))
    (hpresent : ∀ id ∈ stem, graph.hasState id = true)
    (hsimple : graph.lastPath.Nodup → stem.Nodup) : graph.Found goal (stem ++ trail.path) := by
  have hwhole : ∀ id ∈ trail.path, id ∈ graph.states.map (·.id) ∧ id ∉ stem := by
    intro id hid
    simpa using hnearest.route.mem (List.mem_reverse.mp hid)
  obtain ⟨hlinked, hstart⟩ := hnearest.route.prolongs hroots
  refine ⟨⟨hstart, hlinked, trail.state, ?_, hnearest.reached⟩, ?_, fun hlast ↦ ?_⟩
  · rw [List.getLast?_append, Trail.getLast?_path]
    rfl
  · exact List.forall_mem_append.mpr ⟨hpresent, fun id hid ↦ hasState_iff.mpr (hwhole id hid).1⟩
  · refine List.nodup_append.mpr ⟨hsimple hlast, List.nodup_reverse.mpr hnearest.simple, ?_⟩
    rintro id hstem _ htrail rfl
    exact (hwhole id htrail).2 hstem

/-- A resumed search finds a path from an initial state. -/
theorem Detects.resume_yields (hdetects : graph.Detects may goal)
    (hdistinct : (graph.states.map (·.id)).Nodup) :
    Yields may graph.resume fun found ↦ ∀ path ∈ found, graph.Found goal path := by
  unfold resume
  dsimp only
  by_cases hresume : 0 < graph.resumeAt ∧ graph.resumeAt ≤ graph.lastPath.length ∧
      graph.isIntact (graph.lastPath.take graph.resumeAt) = true
  · rw [if_pos hresume]
    have hsublist := List.take_sublist graph.resumeAt graph.lastPath
    obtain ⟨hpresent, hstart, hlinked⟩ := (isIntact_iff hdistinct).mp hresume.2.2
    generalize graph.lastPath.take graph.resumeAt = stem at hsublist hpresent hstart hlinked ⊢
    refine (hdetects.searchFrom_yields hdistinct stem.dropLast stem.getLast?.toList).mono ?_
    rintro (_ | path) hfound _ ⟨⟩
    obtain ⟨trail, rfl, hnearest⟩ := hfound
    refine hnearest.found (fun root hroot ↦ ?_)
      (fun id hid ↦ hpresent id (List.dropLast_subset stem hid))
      fun hlast ↦ (hlast.sublist hsublist).sublist (List.dropLast_sublist stem)
    rw [List.dropLast_append_getLast? root (by simpa using hroot)]
    exact ⟨hlinked, hstart⟩
  · rw [if_neg hresume]
    simp

/-- The search finds a path to a number that is looked for, and a shortest one if nothing was
resumed. Where transitions lead between states, it finds one if there is one. -/
theorem Detects.search_yields (hdetects : graph.Detects may goal)
    (hdistinct : (graph.states.map (·.id)).Nodup) :
    Yields may graph.search fun found ↦
      found.elim (graph.Joined → ∀ path, ¬ graph.PathTo goal path) fun path ↦
        graph.Found goal path ∧ (graph.resumeAt = 0 → graph.Joined →
          ∀ other, graph.PathTo goal other → path.length ≤ other.length) := by
  refine (hdetects.resume_yields hdistinct).bind_eq fun resumed hresult hresumed ↦ ?_
  cases resumed with
  | some path =>
    refine ⟨hresumed path rfl, fun hindex ↦ ?_⟩
    rw [resume_eq_none hindex] at hresult
    cases hresult
  | none =>
    have hwhole : (graph.states.map (·.id)).filter (· ∉ ([] : List StateId)) =
        graph.states.map (·.id) := by simp
    refine (hdetects.searchFrom_yields hdistinct [] (graph.initialStates.map (·.id))).mono ?_
    rintro (_ | path) hfound
    · intro hjoined path hpath
      obtain ⟨trail, -, hgoal, hroute⟩ := hpath.exists_route hjoined
      exact hfound trail (by rwa [hwhole]) hgoal
    · obtain ⟨trail, rfl, hnearest⟩ := hfound
      refine ⟨hnearest.found (fun root hroot ↦ ?_) (by simp) (by simp),
        fun _ hjoined other hother ↦ ?_⟩
      · obtain ⟨state, hstate, rfl⟩ := List.mem_map.mp hroot
        obtain ⟨hmem, hinitial⟩ := List.mem_filter.mp hstate
        exact ⟨List.isChain_singleton _, state, hmem, rfl, hinitial⟩
      · obtain ⟨route, rfl, hgoal, hroute⟩ := hother.exists_route hjoined
        have hle := hnearest.shortest route (by rwa [hwhole]) hgoal
        rw [List.nil_append, Trail.length_path, Trail.length_path]
        exact Nat.succ_le_succ hle

end TimedSafety.AbstractGraph
