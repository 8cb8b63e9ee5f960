import TimedSafety.Automaton.Image
import TimedSafety.Placed
import TimedSafety.Precision.Table

/-!
The abstract graph of an automaton. Its states are zones at locations, cells of the invariants; a
transition along an edge joins two states if some valuation of the first reaches one of the second
along that edge. States are kept in the order of their numbers and transitions in the order of
source, edge and target.

The graph also remembers the last path found in it and the position from which a search along that
path can be resumed.
-/

set_option autoImplicit false

namespace TimedSafety

/-- A zone at a location. It is initial if it holds an initial valuation of the automaton, and
highlighted while it lies on the path under examination. -/
structure AbstractState where
  id : StateId
  location : Location
  zone : Zone
  initial : Bool
  highlighted : Bool
deriving DecidableEq

/-- The text of a state: its number, location and zone, and whether it is initial. -/
def AbstractState.text (state : AbstractState) : Except Fault String := do
  let placed ← (Placed.single state.location state.zone).text
  return s!"{state.id.text} {placed}" ++ if state.initial then " (initial)" else ""

/-- A step from one state to another along an edge. -/
structure Transition where
  source : StateId
  edge : EdgeId
  target : StateId
deriving DecidableEq

namespace Transition

/-- The order by source, then edge, then target. -/
def order (left right : Transition) : Ordering :=
  (compare left.source.number right.source.number).then
    ((compare left.edge.index right.edge.index).then
      (compare left.target.number right.target.number))

/-- Inserts a transition into a sorted list, unless it is already there. -/
def insertSorted (transition : Transition) : List Transition → List Transition
  | [] => [transition]
  | head :: rest =>
    match order transition head with
    | .lt => transition :: head :: rest
    | .eq => head :: rest
    | .gt => head :: insertSorted transition rest

end Transition

/-- The abstraction of an automaton under a partition of its locations into states. -/
structure AbstractGraph where
  automaton : Automaton
  states : List AbstractState
  transitions : List Transition
  precisions : PrecisionTable Precision
  /-- How many states of the last path are untouched since it was found. -/
  resumeAt : Nat
  lastPath : List StateId
  nextId : StateId
deriving DecidableEq

namespace AbstractGraph

/-- The graph without states. -/
def empty (automaton : Automaton) (precisions : PrecisionTable Precision) : AbstractGraph where
  automaton := automaton
  states := []
  transitions := []
  precisions := precisions
  resumeAt := 0
  lastPath := []
  nextId := ⟨0⟩

/-! ### Queries -/

/-- The state of a number. -/
def state? (graph : AbstractGraph) (id : StateId) : Option AbstractState :=
  graph.states.find? fun state ↦ state.id = id

/-- The number is that of a state. -/
def hasState (graph : AbstractGraph) (id : StateId) : Bool := (graph.state? id).isSome

/-- The states at a location. -/
def statesAt (graph : AbstractGraph) (location : Location) : List AbstractState :=
  graph.states.filter fun state ↦ state.location = location

/-- The states with an initial valuation. -/
def initialStates (graph : AbstractGraph) : List AbstractState :=
  graph.states.filter (·.initial)

/-- The edges and targets of the transitions that leave a state. -/
def successors (graph : AbstractGraph) (id : StateId) : List (EdgeId × StateId) :=
  (graph.transitions.filter (·.source = id)).map fun transition ↦
    (transition.edge, transition.target)

/-- The sources and edges of the transitions that enter a state. -/
def predecessors (graph : AbstractGraph) (id : StateId) : List (StateId × EdgeId) :=
  (graph.transitions.filter (·.target = id)).map fun transition ↦
    (transition.source, transition.edge)

/-- The smallest edge of a transition between two states. -/
def edgeBetween (graph : AbstractGraph) (source target : StateId) : Option EdgeId :=
  ((graph.successors source).find? fun (_, next) ↦ next = target).map (·.1)

/-- Waiting in the state can lead into an error. -/
def isErrorState (graph : AbstractGraph) (id : StateId) : Except Fault Bool :=
  match graph.state? id with
  | none => .ok false
  | some state =>
    match graph.automaton.error? state.location with
    | none => .ok false
    | some condition => state.zone.meets condition.approach

/-! ### Changes -/

/-- Highlights a state or takes the highlight away. -/
def setHighlight (graph : AbstractGraph) (id : StateId) (highlighted : Bool) : AbstractGraph :=
  { graph with states := graph.states.map fun state ↦
      if state.id = id then { state with highlighted } else state }

/-- Highlights all states of a path, or takes their highlights away. -/
def setHighlights (graph : AbstractGraph) (path : List StateId) (highlighted : Bool) :
    AbstractGraph :=
  path.foldl (fun graph id ↦ graph.setHighlight id highlighted) graph

/-- Adds a state with the next number. -/
def addState (graph : AbstractGraph) (location : Location) (zone : Zone) :
    Except Fault (AbstractGraph × AbstractState) := do
  let initial ← if location = graph.automaton.initial then do
      let start ← graph.automaton.initialZone
      zone.meets start
    else pure false
  let state : AbstractState := ⟨graph.nextId, location, zone, initial, false⟩
  return ({ graph with states := graph.states ++ [state], nextId := graph.nextId.next }, state)

/-- Adds states at a location, one per zone. -/
def addStates (graph : AbstractGraph) (location : Location) :
    List Zone → Except Fault (AbstractGraph × List AbstractState)
  | [] => .ok (graph, [])
  | zone :: zones => do
    let (grown, state) ← graph.addState location zone
    let (final, states) ← grown.addStates location zones
    return (final, state :: states)

/-- Adds the transition along an edge between two states if a valuation of the first reaches the
second. -/
def connect (edge : EdgeId) (graph : AbstractGraph) (source target : AbstractState) :
    Except Fault AbstractGraph := do
  let move ← graph.automaton.move edge
  let image ← move.post source.zone
  let reached ← image.meets target.zone
  return if reached then
      { graph with transitions :=
          Transition.insertSorted ⟨source.id, edge, target.id⟩ graph.transitions }
    else graph

/-- Adds the transitions along an edge from all given sources to all given targets. -/
def connectAll (edge : EdgeId) (sources targets : List AbstractState) (graph : AbstractGraph) :
    Except Fault AbstractGraph :=
  sources.foldlM (fun graph source ↦
    targets.foldlM (fun graph target ↦ graph.connect edge source target) graph) graph

/-! ### Construction -/

/-- Adds the cells of a location as states. -/
def addCells (graph : AbstractGraph) (location : Location) : Except Fault AbstractGraph := do
  let precision ← graph.precisions.precision location
  let allowed ← graph.automaton.invariantZone location
  let cells ← precision.cells allowed
  let (grown, _) ← graph.addStates location cells
  return grown

/-- The graph whose states are the cells that the precisions cut out of the invariants. -/
def build (automaton : Automaton) (precisions : PrecisionTable Precision) :
    Except Fault AbstractGraph := do
  let celled ← automaton.locations.foldlM addCells (empty automaton precisions)
  automaton.edges.foldlM (fun graph edge ↦
    graph.connectAll edge.id (graph.statesAt edge.source) (graph.statesAt edge.target)) celled

/-! ### Splitting -/

/-- The states that stand for a number after a split: the new ones for the split state itself. -/
def standIns (graph : AbstractGraph) (split : StateId) (pieces : List AbstractState)
    (id : StateId) : List AbstractState :=
  if id = split then pieces else (graph.state? id).toList

/-- Replaces a state by pieces of its zone. The transitions that touched the state are decided anew
for every piece; all others stay. -/
def splitState (graph : AbstractGraph) (id : StateId) (zones : List Zone) :
    Except Fault (AbstractGraph × List AbstractState) :=
  match graph.state? id with
  | none => .error (.splitUnknownState id)
  | some old => do
    let (touching, kept) := graph.transitions.partition fun transition ↦
      transition.source = id ∨ transition.target = id
    let rest := { graph with
      states := graph.states.filter (·.id ≠ id)
      transitions := kept }
    let (grown, pieces) ← rest.addStates old.location zones
    let connected ← touching.foldlM (fun current transition ↦
      current.connectAll transition.edge
        (current.standIns id pieces transition.source)
        (current.standIns id pieces transition.target)) grown
    return (connected, pieces)

end AbstractGraph

end TimedSafety
