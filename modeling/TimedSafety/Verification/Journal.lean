import TimedSafety.Failure
import TimedSafety.Identifier
import TimedSafety.Trace

/-!
Computations that keep a journal. The journal holds the stop flag, what was checked and split, and
the texts of the interpolants and drawings that were made. What has been written stays written, also
if the computation ends in a failure.
-/

set_option autoImplicit false

namespace TimedSafety

/-- An event of a verification run. -/
inductive JournalEntry where
  /-- A path was checked with this verdict. -/
  | checked (path : List StateId) (verdict : Verdict)
  /-- States were split, the first at this position, and so many states there were then. -/
  | split (first states : Nat)
deriving DecidableEq

/-- What a verification run leaves behind besides its result. -/
structure Journal where
  /-- The run was asked to stop. -/
  stopped : Bool
  entries : List JournalEntry
  interpolants : List String
  drawings : List String
deriving DecidableEq

/-- The journal before anything happened. -/
def Journal.start (stopped : Bool) : Journal := ⟨stopped, [], [], []⟩

/-- A computation that can fail and keeps a journal. -/
abbrev Recorded (ε α : Type) := ExceptT (Failure ε) (StateM Journal) α

namespace Recorded

variable {ε ε' α : Type}

/-- A computation without journal. -/
def ofExcept (result : Except (Failure ε) α) : Recorded ε α := ExceptT.mk (pure result)

/-- A computation without journal that can only fault. -/
def ofFault (result : Except Fault α) : Recorded ε α := ofExcept (Failure.ofFault result)

instance : MonadLift (Except (Failure ε)) (ExceptT (Failure ε) (StateM Journal)) := ⟨ofExcept⟩

instance : MonadLift (Except Fault) (ExceptT (Failure ε) (StateM Journal)) := ⟨ofFault⟩

/-- Rewords the errors of a computation. -/
def mapError (reword : ε → ε') (computation : Recorded ε α) : Recorded ε' α :=
  ExceptT.mk do
    let result ← computation.run
    return result.mapError (Failure.map reword)

/-- The run was asked to stop. -/
def isStopped : Recorded ε Bool := return (← get).stopped

/-- Asks the run to stop. -/
def stop : Recorded ε Unit := modify fun journal ↦ { journal with stopped := true }

/-- Writes down an event. -/
def enter (event : JournalEntry) : Recorded ε Unit :=
  modify fun journal ↦ { journal with entries := journal.entries ++ [event] }

/-- Keeps the text of an interpolant. -/
def keepInterpolant (text : String) : Recorded ε Unit :=
  modify fun journal ↦ { journal with interpolants := journal.interpolants ++ [text] }

/-- Keeps a drawing. -/
def keepDrawing (text : String) : Recorded ε Unit :=
  modify fun journal ↦ { journal with drawings := journal.drawings ++ [text] }

end Recorded

end TimedSafety
