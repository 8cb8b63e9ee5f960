import TimedSafety.Zone.Atoms

/-!
States placed at control locations, one location per process. Two placed states are comparable only
at the same locations, and none of them covers everything, since a state always pins its locations
down.
-/

set_option autoImplicit false

namespace TimedSafety

/-- A state together with the locations of all processes. -/
structure Placed (α : Type) where
  locations : List Location
  state : α
deriving DecidableEq

namespace Placed

variable {α : Type}

/-- A state of a single process. -/
def single (location : Location) (state : α) : Placed α := ⟨[location], state⟩

/-- The location of a single process. -/
def location (placed : Placed α) : Except Fault Location :=
  match placed.locations with
  | [location] => .ok location
  | locations => .error (.notOneLocation locations.length)

/-- Another state at the same locations. -/
def withState (placed : Placed α) (state : α) : Placed α := { placed with state }

/-- No placed zone contains the states of all locations. -/
def isTop (_placed : Placed Zone) : Bool := false

def isBottom (placed : Placed Zone) : Bool := placed.state.isBottom

/-- Same locations, and the zone of one lies in the zone of the other. -/
def isSubset (placed other : Placed Zone) : Except Fault Bool :=
  if placed.locations = other.locations then placed.state.isSubset other.state else .ok false

def text (placed : Placed Zone) : Except Fault String := do
  let zoneText ← placed.state.text
  return "(" ++ ", ".intercalate (placed.locations.map Location.text) ++ ") " ++ zoneText

end Placed

end TimedSafety
