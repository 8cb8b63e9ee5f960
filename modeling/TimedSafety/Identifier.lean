/-!
Identifiers of the four index spaces: clocks, locations, edges of an automaton and states of an
abstract graph. Each space has its own type, so a clock can not stand where a location is meant.
Clocks are numbered from one, because index zero is kept for the reference clock that is always
zero; the type carries this. Every identifier has a short text, a letter and its number.
-/

set_option autoImplicit false

namespace TimedSafety

/-- A clock of a model, numbered from one. -/
structure Clock where
  id : Nat
  id_pos : 0 < id
deriving DecidableEq

/-- A control location, numbered from zero. -/
structure Location where
  index : Nat
deriving DecidableEq

/-- An edge of an automaton, numbered from zero in the order of declaration. -/
structure EdgeId where
  index : Nat
deriving DecidableEq

/-- A state of an abstract graph. Numbers are given out in increasing order and never reused. -/
structure StateId where
  number : Nat
deriving DecidableEq

namespace Clock

/-- The clock of a positive number, and nothing for zero. -/
def ofId? (id : Nat) : Option Clock :=
  if hpos : 0 < id then some ⟨id, hpos⟩ else none

def text (clock : Clock) : String := s!"c{clock.id}"

end Clock

def Location.text (location : Location) : String := s!"L{location.index}"

def EdgeId.text (edge : EdgeId) : String := s!"e{edge.index}"

namespace StateId

def text (state : StateId) : String := s!"s{state.number}"

/-- The number given to the state created after this one. -/
def next (state : StateId) : StateId := ⟨state.number + 1⟩

end StateId

end TimedSafety
