import TimedSafety.Valuation

/-!
Configurations of an automaton, a location with a clock valuation, and traces, sequences of them. A
verdict on an abstract path comes with the trace of its realizable part.
-/

set_option autoImplicit false

namespace TimedSafety

/-- A location and the clock values there. -/
structure Configuration where
  location : Location
  valuation : Valuation
deriving DecidableEq

def Configuration.text (configuration : Configuration) : String :=
  s!"{configuration.location.text} {configuration.valuation.text}"

/-- The steps of a run, in order. -/
structure Trace where
  steps : List Configuration
deriving DecidableEq

namespace Trace

def length (trace : Trace) : Nat := trace.steps.length

def text (trace : Trace) : String := " -> ".intercalate (trace.steps.map Configuration.text)

end Trace

/-- Whether an abstract path can be followed to an error. -/
inductive Verdict where
  /-- The whole path can be followed, and ends in an error valuation. -/
  | feasible (trace : Trace)
  /-- Only the states of the trace can be reached along the path. -/
  | infeasible (trace : Trace)
deriving DecidableEq

/-- The trace that comes with a verdict. -/
def Verdict.trace : Verdict → Trace
  | feasible trace => trace
  | infeasible trace => trace

end TimedSafety
