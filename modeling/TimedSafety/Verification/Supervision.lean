import TimedSafety.Verification.Plan

/-!
Supervised plans. A supervisor writes the verdicts and splits of a plan into the journal, and may
interfere with one call of one phase: let a solver fail, let a split do nothing, or ask the run to
stop before a check or an interpolation, or after a split. A split that is interfered with is not
written down.
-/

set_option autoImplicit false

namespace TimedSafety

/-- A phase of a refinement iteration. -/
inductive VerificationPhase where
  | check
  | interpolate
  | split
deriving DecidableEq

/-- What a supervisor does to a call. -/
inductive Effect where
  | fail (error : SolverError)
  | stop
  | idle
deriving DecidableEq

/-- An effect on one call of a phase. Calls are counted from one. -/
structure Interference where
  phase : VerificationPhase
  call : Nat
  effect : Effect
deriving DecidableEq

namespace Interference

/-- The effect on a call of a phase, if there is one. -/
def effectOn (interference : Option Interference) (phase : VerificationPhase) (call : Nat) :
    Option Effect :=
  interference.bind fun planned ↦
    if planned.phase = phase ∧ planned.call = call then some planned.effect else none

/-- Interferes before a solver is called. -/
def beforeSolver (interference : Option Interference) (phase : VerificationPhase) (call : Nat) :
    Recorded SolverError Unit :=
  match effectOn interference phase call with
  | some (.fail error) => throw (.reported error)
  | some .stop => Recorded.stop
  | _ => return

end Interference

namespace Plan

/-- The plan under a supervisor. -/
def supervised (plan : Plan) (interference : Option Interference) : Plan where
  check call graph path := do
    Interference.beforeSolver interference .check call
    let verdict ← plan.check call graph path
    Recorded.enter (.checked path verdict)
    return verdict
  interpolate call graph path trace := do
    Interference.beforeSolver interference .interpolate call
    plan.interpolate call graph path trace
  split call graph path interpolant :=
    match Interference.effectOn interference .split call with
    | none => do
      let (split, first) ← plan.split call graph path interpolant
      Recorded.enter (.split first split.states.length)
      return (split, first)
    | some .stop => do
      let result ← plan.split call graph path interpolant
      Recorded.stop
      return result
    | some _ => return (graph, path.length)

end Plan

end TimedSafety
