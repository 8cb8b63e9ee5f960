import TimedSafety.Constraint

/-!
Commands: what an edge does to the clocks. A guard blocks unless its constraint holds; the others
set one clock. `Command.apply` runs a command on a valuation, where a shift below zero blocks like a
guard, and a freed clock, which may take any value, is set to zero.

The checked constructors `Command.resetTo` and `Command.shiftBy` refuse constants out of range, and
the former also negative ones.
-/

set_option autoImplicit false

namespace TimedSafety

/-- One step of an edge. -/
inductive Command where
  | reset (clock : Clock) (value : Int)
  | guard (constraint : Constraint)
  | copy (clock source : Clock)
  | shift (clock : Clock) (offset : Int)
  | free (clock : Clock)
deriving DecidableEq

namespace Command

def text : Command → String
  | reset clock value => s!"{clock.text} := {value}"
  | guard constraint => s!"[{constraint.text}]"
  | copy clock source => s!"{clock.text} := {source.text}"
  | shift clock offset => s!"{clock.text} := {clock.text} + {offset}"
  | free clock => s!"free {clock.text}"

/-- A reset to a constant that is not negative and not too large. -/
def resetTo (clock : Clock) (value : Int) : Except Fault Command :=
  if value < 0 then .error (.negativeReset clock value)
  else do
    let command := reset clock value
    checkConstant value command.text
    return command

/-- A shift by a constant that is not too large. -/
def shiftBy (clock : Clock) (offset : Int) : Except Fault Command := do
  let command := shift clock offset
  checkConstant offset command.text
  return command

/-- The clocks that a command reads or writes. -/
def clocks : Command → List Clock
  | reset clock _ => [clock]
  | guard constraint => constraint.clocks
  | copy clock source => [clock, source]
  | shift clock _ => [clock]
  | free clock => [clock]

/-- The command can be undone when an edge is followed backwards. -/
def isReversible : Command → Bool
  | reset _ _ => true
  | guard _ => true
  | _ => false

/-- The valuation after the command, or nothing if it blocks. -/
def apply (command : Command) (valuation : Valuation) : Except Fault (Option Valuation) :=
  match command with
  | reset clock value => do
    let after ← valuation.set clock value
    return some after
  | guard constraint => do
    let enabled ← constraint.holds valuation
    return if enabled then some valuation else none
  | copy clock source => do
    let value ← valuation.get source
    let after ← valuation.set clock value
    return some after
  | shift clock offset => do
    let value ← valuation.get clock
    if value + offset < 0 then return none
    let after ← valuation.set clock (value + offset)
    return some after
  | free clock => do
    let after ← valuation.set clock 0
    return some after

end Command

end TimedSafety
