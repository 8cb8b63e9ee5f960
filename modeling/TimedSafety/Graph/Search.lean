import TimedSafety.Graph.Basic

/-!
Search for a path from an initial state to an error state, breadth first. The search keeps a queue
of trails, each a state with the states that led to it, and the states not yet seen. A state leaves
the unseen ones when its trail is queued, so queue and unseen states together shrink by one with
every trail that is taken up, and the search ends.

After a refinement that left the first states of the last path untouched, the search is resumed from
the last of them. If that finds nothing, all initial states are searched from.
-/

set_option autoImplicit false

namespace TimedSafety.AbstractGraph

/-- A state reached by the search, and the states on the way to it, last one first. -/
structure Trail where
  state : StateId
  ancestors : List StateId

/-- The states of a trail, from its start. -/
def Trail.path (trail : Trail) : List StateId := (trail.state :: trail.ancestors).reverse

/-- The trails to those of the given states that were not seen before, and what is unseen then. -/
def expand (ancestors : List StateId) :
    List StateId → List StateId → List Trail × List StateId
  | [], unseen => ([], unseen)
  | next :: rest, unseen =>
    if next ∈ unseen then
      let (trails, remaining) := expand ancestors rest (unseen.erase next)
      (⟨next, ancestors⟩ :: trails, remaining)
    else expand ancestors rest unseen

/-- Every new trail takes one state out of the unseen ones. -/
theorem length_expand (ancestors targets unseen : List StateId) :
    (expand ancestors targets unseen).1.length + (expand ancestors targets unseen).2.length =
      unseen.length := by
  induction targets generalizing unseen with
  | nil => simp [expand]
  | cons next rest ih =>
    by_cases hnext : next ∈ unseen
    · have herase := List.length_erase_of_mem hnext
      have hpos := List.length_pos_of_mem hnext
      have hrest := ih (unseen.erase next)
      simp only [expand, if_pos hnext, List.length_cons]
      omega
    · simp only [expand, if_neg hnext]
      exact ih unseen

/-- The trail to the first error state that the search meets. -/
def explore (graph : AbstractGraph) (queue : List Trail) (unseen : List StateId) :
    Except Fault (Option Trail) :=
  match queue with
  | [] => .ok none
  | trail :: waiting =>
    match graph.isErrorState trail.state with
    | .error fault => .error fault
    | .ok true => .ok (some trail)
    | .ok false =>
      let expansion := expand (trail.state :: trail.ancestors)
        ((graph.successors trail.state).map (·.2)) unseen
      graph.explore (waiting ++ expansion.1) expansion.2
termination_by queue.length + unseen.length
decreasing_by
  have hlength := length_expand (trail.state :: trail.ancestors)
    ((graph.successors trail.state).map (·.2)) unseen
  simp only [List.length_append, List.length_cons]
  omega

/-- A path from one of the roots to an error state, continuing a stem that is not entered again. -/
def searchFrom (graph : AbstractGraph) (stem roots : List StateId) :
    Except Fault (Option (List StateId)) := do
  let unseen := (graph.states.map (·.id)).filter (· ∉ stem)
  let start := expand [] roots unseen
  let found ← graph.explore start.1 start.2
  return found.map fun trail ↦ stem ++ trail.path

/-- Each state of a path is joined to the next one. -/
def isConnected (graph : AbstractGraph) : List StateId → Bool
  | source :: target :: rest =>
    (graph.edgeBetween source target).isSome && graph.isConnected (target :: rest)
  | _ => true

/-- The first states of the last path still are a path from an initial state. -/
def isIntact (graph : AbstractGraph) (stem : List StateId) : Bool :=
  stem.all graph.hasState &&
    (match stem.head? with
    | some first => (graph.state? first).any (·.initial)
    | none => false) &&
    graph.isConnected stem

/-- The search from the end of the untouched part of the last path, if there is one. -/
def resume (graph : AbstractGraph) : Except Fault (Option (List StateId)) :=
  let stem := graph.lastPath.take graph.resumeAt
  if 0 < graph.resumeAt ∧ graph.resumeAt ≤ graph.lastPath.length ∧ graph.isIntact stem then
    graph.searchFrom stem.dropLast stem.getLast?.toList
  else .ok none

/-- A path from an initial state to an error state, if there is one. -/
def search (graph : AbstractGraph) : Except Fault (Option (List StateId)) := do
  match ← graph.resume with
  | some path => return some path
  | none => graph.searchFrom [] (graph.initialStates.map (·.id))

/-- Searches for a path to an error state, highlights its states and remembers it. -/
def findPath (graph : AbstractGraph) : Except Fault (AbstractGraph × Option (List StateId)) := do
  match ← graph.search with
  | some path => return ({ graph.setHighlights path true with lastPath := path }, some path)
  | none => return ({ graph with lastPath := [] }, none)

end TimedSafety.AbstractGraph
