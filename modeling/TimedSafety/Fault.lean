import TimedSafety.Identifier
import TimedSafety.Rational
import TimedSafety.Bound.Basic

/-!
Faults: the ways in which a computation breaks a promise and can not go on. A fault is data, with
one constructor per cause, and `Fault.message` is the only place where its wording is fixed.
Operations that can fault return `Except Fault`, so whether one arises, and which of two comes
first, is part of what an operation computes.
-/

set_option autoImplicit false

namespace TimedSafety

/-- The largest magnitude of a constant in a constraint, a reset or a shift. Closure adds constants
along paths between clocks, so they stay far below the largest word; where constraints contradict
each other, sums can still leave it. -/
def maxConstant : Int := 1099511627776

/-- A broken promise, by cause. -/
inductive Fault where
  /-- Clock number zero was asked for. -/
  | clockZero
  /-- The sum of two bounds does not fit a word. -/
  | boundOverflow (left right : Bound)
  /-- A negation or an address does not fit a word. -/
  | wordOverflow
  /-- A position beyond the end of a sequence was asked for. -/
  | indexOutOfBounds
  /-- A constant larger than `maxConstant` stands in the given text. -/
  | constantOutOfRange (value : Int) (subject : String)
  /-- A difference constraint names one clock twice. -/
  | singleClockDifference (clock : Clock)
  /-- A clock was to be set below zero. -/
  | negativeClock (clock : Clock) (value : Rat)
  /-- Time was to pass backwards. -/
  | negativeDelay (delay : Rat)
  /-- A reset to a negative constant was to be built. -/
  | negativeReset (clock : Clock) (value : Int)
  /-- A zone has fewer clocks than the one that was named. -/
  | clockOutOfRange (clock : Clock) (clocks : Nat)
  /-- Two zones over different numbers of clocks were to be met. -/
  | zoneSizeMismatch
  /-- Two matrices over different numbers of clocks were compared. -/
  | matrixSizeMismatch
  /-- A valuation was checked against a zone over another number of clocks. -/
  | valuationSizeMismatch (valuation zone : Nat)
  /-- Neither an atom nor its negation meets a piece that was taken for non-empty. -/
  | pieceVanished (piece atom : String)
  /-- A precision was to track something that is not an atom. -/
  | notAnAtom (constraint : String)
  /-- The one location of a state with several was asked for. -/
  | notOneLocation (count : Nat)
  /-- A location has neither a precision of its own nor a fallback. -/
  | noPrecision (location : Location)
  /-- A command that can not be undone stands on an edge that was to be followed backwards. -/
  | irreversible (command : String) (edge : EdgeId)
  /-- A state that is not in the graph was to be split. -/
  | splitUnknownState (state : StateId)
  /-- A path without states was to be replayed. -/
  | emptyPath
  /-- A path names a state that is not in the graph. -/
  | unknownPathState (state : StateId)
  /-- Two consecutive states of a path are not connected. -/
  | noTransition (source target : StateId)
  /-- The first state of a path holds no initial valuation. -/
  | noInitialValuation (state : StateId)
  /-- A zone taken for non-empty has no valuation to pick. -/
  | noSample (zone : String)
  /-- The trace to interpolate along is empty or longer than its path. -/
  | traceLength (trace path : Nat)
  /-- The trace to refine along is empty or longer than its path. -/
  | traceMisfit (trace path : Nat)
  /-- A refinement left the number of states as it was. -/
  | noProgress
deriving DecidableEq

namespace Fault

/-- The words in front of a fault that shows a zone to be empty although it was taken for non-empty.
Such a fault is no misuse of an operation, but a matrix that was not closed. -/
def contradiction : String := "internal error: entered unreachable code: "

def message : Fault → String
  | clockZero => "Clock IDs must be >= 1"
  | boundOverflow left right => s!"Bound overflow: {left.text} + {right.text}"
  | wordOverflow => "arithmetic overflow"
  | indexOutOfBounds => "index out of bounds"
  | constantOutOfRange value subject =>
    s!"Constant {value} in {subject} is out of range (max magnitude {maxConstant})"
  | singleClockDifference clock => s!"Difference constraint over a single clock {clock.text}"
  | negativeClock clock value =>
    s!"Clock {clock.text} set to negative value {Rational.text value}"
  | negativeDelay delay => s!"Negative delay {Rational.text delay}"
  | negativeReset clock value => s!"Reset of {clock.text} to negative value {value}"
  | clockOutOfRange clock clocks =>
    s!"Clock {clock.text} out of range for a zone over {clocks} clocks"
  | zoneSizeMismatch => "Zone dimension mismatch"
  | matrixSizeMismatch => "DBM dimension mismatch"
  | valuationSizeMismatch valuation zone =>
    s!"Valuation over {valuation} clocks checked against zone over {zone} clocks"
  | pieceVanished piece atom => s!"{contradiction}non-empty piece {piece} vanished under {atom}"
  | notAnAtom constraint => s!"ZonePrec can only track atoms, got {constraint}"
  | notOneLocation count => s!"State has {count} locations, expected one"
  | noPrecision location => s!"Location not found: no precision for {location.text}"
  | irreversible command edge =>
    s!"Clock operation `{command}` on edge {edge.text} can not be applied backwards"
  | splitUnknownState state => s!"Cannot split unknown state {state.text}"
  | emptyPath => "Empty counterexample"
  | unknownPathState state => s!"Counterexample refers to unknown state {state.text}"
  | noTransition source target =>
    s!"No transition from {source.text} to {target.text} in counterexample"
  | noInitialValuation state =>
    s!"First state {state.text} of counterexample holds no initial valuation"
  | noSample zone => s!"{contradiction}non-empty zone {zone} has no sample"
  | traceLength trace path =>
    s!"Trace of length {trace} for counterexample of length {path}"
  | traceMisfit trace path =>
    s!"Trace of length {trace} does not fit counterexample of length {path}"
  | noProgress => "Refinement did not split any state of the counterexample"

end Fault

end TimedSafety
