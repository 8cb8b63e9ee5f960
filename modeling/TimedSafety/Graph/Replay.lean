import TimedSafety.Graph.Basic
import TimedSafety.Trace
import TimedSafety.Zone.Sample

/-!
Replay of an abstract path with exact zones. The zone at the first state holds its initial
valuations; each further zone is the image of the one before along the smallest edge between the two
states, met with the next state. The replay stops at the first zone that is empty. A path is
feasible if the replay reaches its last state and some valuation there can wait into an error; the
trace picks a valuation of every zone, and an error valuation at the end of a feasible path.
-/

set_option autoImplicit false

namespace TimedSafety.AbstractGraph

/-- The state of a path. -/
def pathState (graph : AbstractGraph) (id : StateId) : Except Fault AbstractState :=
  match graph.state? id with
  | some state => .ok state
  | none => .error (.unknownPathState id)

/-- The move along the smallest edge between two states of a path. -/
def pathMove (graph : AbstractGraph) (source target : StateId) : Except Fault Move :=
  match graph.edgeBetween source target with
  | some edge => graph.automaton.move edge
  | none => .error (.noTransition source target)

/-- The zones reached from a zone at one state along the states that follow it. -/
def reachFrom (graph : AbstractGraph) (current : Zone) (here : StateId) :
    List StateId → Except Fault (List Zone)
  | [] => .ok (if current.isBottom then [] else [current])
  | next :: rest =>
    if current.isBottom then .ok []
    else do
      let move ← graph.pathMove here next
      let image ← move.post current
      let state ← graph.pathState next
      let reached ← image.meet state.zone
      let later ← graph.reachFrom reached next rest
      return current :: later

/-- The zones reached along a path, up to the first that is empty. -/
def reachAlong (graph : AbstractGraph) : List StateId → Except Fault (List Zone)
  | [] => .error .indexOutOfBounds
  | first :: rest => do
    let state ← graph.pathState first
    let start ← graph.automaton.initialZone
    let reached ← start.meet state.zone
    graph.reachFrom reached first rest

/-- The error valuations into which a zone at a location can wait, if there are any. -/
def errorWitness (graph : AbstractGraph) (location : Location) (zone : Zone) :
    Except Fault (Option Zone) :=
  match graph.automaton.error? location with
  | none => .ok none
  | some condition => do
    let doomed ← zone.meet condition.approach
    if doomed.isBottom then return none
    let place ← graph.automaton.place location
    let waited ← doomed.elapse place.urgent place.invariants
    let witness ← waited.meet condition.zone
    return some witness

/-- A trace step with a valuation of a zone. -/
def sampleStep (location : Location) (zone : Zone) : Except Fault Configuration :=
  match zone.sample with
  | some valuation => .ok ⟨location, valuation⟩
  | none => do
    let zoneText ← zone.text
    throw (.noSample zoneText)

/-- The steps through the zones along a path, and whether the last one is an error. Only the last
state of the path is asked for an error. -/
def traceAlong (graph : AbstractGraph) :
    List StateId → List Zone → Except Fault (List Configuration × Bool)
  | id :: rest, zone :: zones => do
    let state ← graph.pathState id
    let error ← if rest.isEmpty then graph.errorWitness state.location zone else pure none
    let step ← sampleStep state.location (error.getD zone)
    let (steps, later) ← graph.traceAlong rest zones
    return (step :: steps, error.isSome || later)
  | _, _ => .ok ([], false)

/-- Decides whether a path can be followed to an error. -/
def replay (graph : AbstractGraph) (path : List StateId) : Except Fault Verdict :=
  match path with
  | [] => .error .emptyPath
  | first :: _ => do
    let zones ← graph.reachAlong path
    if zones.isEmpty then throw (.noInitialValuation first)
    let (steps, feasible) ← graph.traceAlong path zones
    return if feasible then .feasible ⟨steps⟩ else .infeasible ⟨steps⟩

end TimedSafety.AbstractGraph
