import TimedSafety.Graph.Search
import TimedSafety.Verification.Plan

/-!
The verification loop. Each iteration searches the abstract graph for a path to an error. If there
is none, the automaton is safe; if the path found is feasible, it is violated; otherwise the graph
is refined and the next iteration begins. The loop ends early when it is asked to stop and when it
reaches its limit of iterations.

`Verification.iterate` is one iteration and `Verification.run` repeats it a given number of times at
most, so a run without a limit is the repetition of `run` until it is finished.
-/

set_option autoImplicit false

namespace TimedSafety

/-- The result of a verification run. -/
inductive Outcome where
  /-- No error is reachable; the last graph had so many states. -/
  | safe (iterations states : Nat)
  /-- An error is reached along the trace. -/
  | violated (trace : Trace) (iterations : Nat)
  /-- The run was asked to stop. -/
  | cancelled
deriving DecidableEq

def Outcome.text : Outcome → String
  | safe iterations states => s!"SAFE after {iterations} iterations ({states} abstract states)"
  | violated trace iterations => s!"UNSAFE after {iterations} iterations: {trace.text}"
  | cancelled => "CANCELLED"

/-- Where a run stands: finished, or about to begin an iteration. -/
inductive Standing where
  | finished (outcome : Outcome)
  | underway (graph : AbstractGraph) (iterations : Nat)
deriving DecidableEq

/-- A plan with a limit of iterations, if there is one, and a style if drawings are wanted. -/
structure Verification where
  plan : Plan
  limit : Option Nat
  style : Option DrawingStyle

namespace Verification

/-- The limit of iterations that was reached, if it was. -/
def exhausted (verification : Verification) (iterations : Nat) : Option Nat :=
  verification.limit.filter (· ≤ iterations)

/-- One iteration, after the given number of them. -/
def iterate (verification : Verification) (graph : AbstractGraph) (iterations : Nat) :
    Recorded VerificationError Standing := do
  if ← Recorded.isStopped then return .finished .cancelled
  match verification.exhausted iterations with
  | some limit => throw (.reported (.iterationLimit limit))
  | none =>
    let call := iterations + 1
    let (searched, found) ← graph.findPath
    match found with
    | none => return .finished (.safe call searched.states.length)
    | some path =>
      let verdict ← (verification.plan.check call searched path).mapError VerificationError.solver
      match verdict with
      | .feasible trace => return .finished (.violated trace call)
      | .infeasible trace =>
        match ← verification.plan.refine verification.style call searched path trace with
        | none => return .finished .cancelled
        | some refined => return .underway refined call

/-- Repeats iterations until the run is finished, at most `fuel` of them. -/
def run (verification : Verification) :
    Nat → AbstractGraph → Nat → Recorded VerificationError Standing
  | 0, graph, iterations => return .underway graph iterations
  | fuel + 1, graph, iterations => do
    match ← verification.iterate graph iterations with
    | .finished outcome => return .finished outcome
    | .underway refined next => verification.run fuel refined next

/-- Starts a run on the abstraction of an automaton under the given precisions, with at most `fuel`
iterations. -/
def verify (verification : Verification) (automaton : Automaton)
    (precisions : PrecisionTable Precision) (fuel : Nat) :
    Recorded VerificationError Standing := do
  let graph ← AbstractGraph.build automaton precisions
  verification.run fuel graph 0

end Verification

end TimedSafety
