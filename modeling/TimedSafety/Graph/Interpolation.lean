import TimedSafety.Failure
import TimedSafety.Graph.Replay
import TimedSafety.Interpolant

/-!
Interpolants of infeasible paths by exact zones. Forwards, the formula of a position is the zone
that the replay reaches there. Backwards, it is the complement of the valuations from which the
failure follows, wherever those can be computed and are not reached; otherwise the forward formula
is used.
-/

set_option autoImplicit false

namespace TimedSafety.AbstractGraph

/-- The valuations of a state from which the rest of the path goes on: into an error from the last
state, into the next state from any other. A move that can not be undone gives none. -/
def failureZone (graph : AbstractGraph) (id : StateId) (next : Option StateId) :
    Except Fault Zone :=
  match next with
  | none =>
    match (graph.state? id).bind fun state ↦ graph.automaton.error? state.location with
    | none => .ok (Zone.bottom graph.automaton.clocks)
    | some condition => do
      let state ← graph.pathState id
      state.zone.meet condition.approach
  | some next => do
    let move ← graph.pathMove id next
    if move.isReversible then do
      let following ← graph.pathState next
      let before ← move.pre following.zone
      let state ← graph.pathState id
      before.meet state.zone
    else return Zone.bottom graph.automaton.clocks

/-- The zones from which a zone at one state is reached, for the states before it, nearest first.
They are empty from the first move that can not be undone, or the first empty zone, on. -/
def leadBack (graph : AbstractGraph) (later : Zone) (next : StateId) :
    List StateId → Except Fault (List Zone)
  | [] => .ok []
  | id :: earlier => do
    let move ← graph.pathMove id next
    if !move.isReversible || later.isBottom then
      return List.replicate (earlier.length + 1) (Zone.bottom graph.automaton.clocks)
    else do
      let before ← move.pre later
      let state ← graph.pathState id
      let here ← before.meet state.zone
      let zones ← graph.leadBack here id earlier
      return here :: zones

/-- For each position up to the failure, the valuations from which the failure follows. -/
def backwardZones (graph : AbstractGraph) (path : List StateId) (failure : Nat) :
    Except Fault (List Zone) :=
  match path[failure]? with
  | none => .error .indexOutOfBounds
  | some id => do
    let bad ← graph.failureZone id path[failure + 1]?
    let zones ← graph.leadBack bad id (path.take failure).reverse
    return zones.reverse ++ [bad]

/-- The formula of a position: its backward zone is avoided if it is there, not empty and not
reached, and otherwise its forward zone is reached. -/
def formulaOf (forward : Zone) (backward : Option Zone) : Except Fault Formula :=
  match backward with
  | none => .ok (.reach forward)
  | some bad =>
    if bad.isBottom then .ok (.reach forward)
    else do
      let overlap ← bad.meets forward
      return if overlap then .reach forward else .avoid bad

/-- The interpolant of an infeasible path, of which the trace is the realizable part. -/
def interpolate (graph : AbstractGraph) (kind : InterpolantKind) (direction : Direction)
    (path : List StateId) (trace : Trace) : Except (Failure SolverError) Interpolant := do
  if trace.length = 0 ∨ path.length < trace.length then
    throw (.broken (.traceLength trace.length path.length))
  let forward ← graph.reachAlong path
  if forward.length ≠ trace.length then
    throw (.reported (.unknown
      s!"trace reaches {trace.length} states but zones reach {forward.length}"))
  let failure := trace.length - 1
  let backward ← match direction with
    | .forward => pure (forward.map fun _ ↦ none)
    | .backward => do
      let zones ← graph.backwardZones path failure
      pure (zones.map some)
  let positions := forward.zip backward
  match kind with
  | .sequence => do
    let formulas ← (positions.mapM fun (reached, bad) ↦ formulaOf reached bad :
      Except Fault (List Formula))
    return .sequence formulas
  | .binary =>
    match positions[failure]? with
    | some (reached, bad) => do
      let formula ← formulaOf reached bad
      return .binary failure formula
    | none => throw (.broken .indexOutOfBounds)

end TimedSafety.AbstractGraph
