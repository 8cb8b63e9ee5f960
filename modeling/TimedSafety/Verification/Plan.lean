import TimedSafety.Graph.Drawing
import TimedSafety.Graph.Interpolation
import TimedSafety.Graph.Refinement
import TimedSafety.Verification.Journal

/-!
Plans: how the three phases of a refinement iteration are carried out. A plan says how a path is
checked, how an infeasible one is interpolated and how states are split; each phase is told the
number of its call. `Plan.exact` does all three with exact zones. `Plan.refine` is one refinement:
it interpolates, splits, and insists that the number of states grew.
-/

set_option autoImplicit false

namespace TimedSafety

/-- How the phases of an iteration are carried out. -/
structure Plan where
  check : Nat → AbstractGraph → List StateId → Recorded SolverError Verdict
  interpolate : Nat → AbstractGraph → List StateId → Trace → Recorded SolverError Interpolant
  split : Nat → AbstractGraph → List StateId → Interpolant →
    Recorded SolverError (AbstractGraph × Nat)

namespace Plan

/-- Replay, interpolation and splitting by exact zones. -/
def exact (kind : InterpolantKind) (direction : Direction) : Plan where
  check _ graph path := Recorded.ofFault (graph.replay path)
  interpolate _ graph path trace :=
    Recorded.ofExcept (graph.interpolate kind direction path trace)
  split _ graph path interpolant := Recorded.ofFault (graph.splitAlong path interpolant)

/-- Keeps the text of an interpolant if drawings are wanted. -/
def observeInterpolant (style : Option DrawingStyle) (interpolant : Interpolant) :
    Recorded VerificationError Unit :=
  match style with
  | none => return
  | some _ => do
    let text ← interpolant.text
    Recorded.keepInterpolant text

/-- Keeps a drawing of a graph if drawings are wanted. -/
def observeGraph (style : Option DrawingStyle) (graph : AbstractGraph) :
    Recorded VerificationError Unit :=
  match style with
  | none => return
  | some style => do
    let text ← graph.draw style
    Recorded.keepDrawing text

/-- Refines a graph by an infeasible path, of which the trace is the realizable part. There is no
result if the run was asked to stop. -/
def refine (plan : Plan) (style : Option DrawingStyle) (call : Nat) (graph : AbstractGraph)
    (path : List StateId) (trace : Trace) :
    Recorded VerificationError (Option AbstractGraph) := do
  if trace.length = 0 ∨ path.length < trace.length then
    throw (.broken (.traceMisfit trace.length path.length))
  let interpolant ←
    (plan.interpolate call graph path trace).mapError VerificationError.solver
  observeInterpolant style interpolant
  if ← Recorded.isStopped then return none
  let (split, first) ←
    (plan.split call graph path interpolant).mapError VerificationError.solver
  if ← Recorded.isStopped then return none
  if split.states.length ≤ graph.states.length then throw (.broken .noProgress)
  let refined := { split.setHighlights path false with resumeAt := first }
  observeGraph style refined
  return some refined

end Plan

end TimedSafety
