import TimedSafety.Fault

/-!
Errors that a caller can handle, as opposed to faults: a model that names something undeclared, a
solver without an answer, a run that did not converge. `Failure` joins the errors of one operation
with the faults it may also meet, and faults lift into it.
-/

set_option autoImplicit false

namespace TimedSafety

/-- Why a draft is not an automaton. -/
inductive ModelError where
  | noInitialLocation
  | unknownLocation (location : Location)
  | unknownClock (clock : Clock)
deriving DecidableEq

/-- Why a check or an interpolation has no answer. -/
inductive SolverError where
  | unknown (reason : String)
  | timeout
deriving DecidableEq

/-- Why a verification run has no verdict. -/
inductive VerificationError where
  | solver (error : SolverError)
  | iterationLimit (iterations : Nat)
deriving DecidableEq

/-- A reported error or a fault. -/
inductive Failure (ε : Type) where
  | reported (error : ε)
  | broken (fault : Fault)
deriving DecidableEq

def ModelError.message : ModelError → String
  | noInitialLocation => "Model has no initial location"
  | unknownLocation location => s!"Unknown location {location.text}"
  | unknownClock clock => s!"Unknown clock {clock.text}"

def SolverError.message : SolverError → String
  | unknown reason => s!"Solver returned unknown: {reason}"
  | timeout => "Solver timed out"

namespace VerificationError

def message : VerificationError → String
  | solver error => s!"Solver error: {error.message}"
  | iterationLimit iterations => s!"No verdict after {iterations} iterations"

/-- The error behind this one, if there is one. -/
def cause : VerificationError → Option SolverError
  | solver error => some error
  | iterationLimit _ => none

end VerificationError

namespace Failure

variable {ε ε' : Type}

/-- Rewords the reported errors and keeps the faults. -/
def map (reword : ε → ε') : Failure ε → Failure ε'
  | reported error => reported (reword error)
  | broken fault => broken fault

/-- A computation that can fault, inside one that can also report errors. -/
def ofFault {α : Type} : Except Fault α → Except (Failure ε) α
  | .ok value => .ok value
  | .error fault => .error (broken fault)

instance : MonadLift (Except Fault) (Except (Failure ε)) := ⟨ofFault⟩

end Failure

end TimedSafety
