import TimedSafety.Zone.Draft

/-!
Timed automata: locations with an invariant and an urgency flag, joined by edges that carry a list
of commands. What must not happen is given by error conditions, a location together with a zone of
valuations that must not be reached there. Each error condition also keeps its approach: the
valuations from which waiting in the location leads into the error zone.

A `Move` is an edge with all that a computation along it has to know about its two ends.
-/

set_option autoImplicit false

namespace TimedSafety

/-- A control location. In an urgent one no time passes. -/
structure Place where
  name : String
  urgent : Bool
  invariants : List Constraint
deriving DecidableEq

/-- An edge between two locations. -/
structure Edge where
  id : EdgeId
  source : Location
  target : Location
  commands : List Command
deriving DecidableEq

/-- Valuations that must not be reached at a location, and those from which waiting reaches them. -/
structure ErrorCondition where
  location : Location
  zone : Zone
  approach : Zone
deriving DecidableEq

/-- An edge with the invariants of its ends and the urgency of its source. -/
structure Move where
  edge : EdgeId
  source : Location
  target : Location
  commands : List Command
  sourceInvariants : List Constraint
  targetInvariants : List Constraint
  sourceUrgent : Bool
deriving DecidableEq

def Move.text (move : Move) : String :=
  s!"{move.edge.text}: {move.source.text} -> {move.target.text} [" ++
    "; ".intercalate (move.commands.map Command.text) ++ "]"

/-- A timed automaton with error conditions, at most one per location and sorted by location. -/
structure Automaton where
  clockNames : List String
  places : List Place
  edges : List Edge
  initial : Location
  errors : List ErrorCondition
deriving DecidableEq

namespace Automaton

/-- The number of clocks. -/
def clocks (automaton : Automaton) : Nat := automaton.clockNames.length

/-- All locations, in order. -/
def locations (automaton : Automaton) : List Location :=
  (List.range automaton.places.length).map Location.mk

/-- What is known about a location. -/
def place (automaton : Automaton) (location : Location) : Except Fault Place :=
  match automaton.places[location.index]? with
  | some found => .ok found
  | none => .error .indexOutOfBounds

/-- The valuations that a location allows. -/
def invariantZone (automaton : Automaton) (location : Location) : Except Fault Zone := do
  let found ← automaton.place location
  (Zone.top automaton.clocks).restrictAll found.invariants

/-- The initial valuations: all clocks zero, if the initial location allows that. -/
def initialZone (automaton : Automaton) : Except Fault Zone := do
  let allowed ← automaton.invariantZone automaton.initial
  (Zone.zero automaton.clocks).meet allowed

/-- The error condition of a location. -/
def error? (automaton : Automaton) (location : Location) : Option ErrorCondition :=
  automaton.errors.find? fun condition ↦ condition.location = location

/-- The edges that leave a location. -/
def outgoing (automaton : Automaton) (location : Location) : List Edge :=
  automaton.edges.filter fun edge ↦ edge.source = location

/-- The move along an edge. -/
def move (automaton : Automaton) (id : EdgeId) : Except Fault Move :=
  match automaton.edges[id.index]? with
  | none => .error .indexOutOfBounds
  | some edge => do
    let source ← automaton.place edge.source
    let target ← automaton.place edge.target
    return {
      edge := id
      source := edge.source
      target := edge.target
      commands := edge.commands
      sourceInvariants := source.invariants
      targetInvariants := target.invariants
      sourceUrgent := source.urgent }

end Automaton

end TimedSafety
