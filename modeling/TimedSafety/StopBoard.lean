/-!
Stop flags and the handles through which they are shared. A handle refers to one flag; a copy of a
handle refers to the same flag, a new handle to a new one. Raising or clearing a flag through any
handle is seen through all handles of that flag.
-/

set_option autoImplicit false

namespace TimedSafety

/-- The flags, and for each handle the number of its flag. -/
structure StopBoard where
  raised : List Bool
  handles : List Nat

namespace StopBoard

/-- One handle of one lowered flag. -/
def start : StopBoard := ⟨[false], [0]⟩

/-- The flag of a handle. Handles are counted round and round. -/
def flagOf (board : StopBoard) (handle : Nat) : Nat :=
  board.handles.getD (handle % board.handles.length) 0

/-- Adds a handle with a lowered flag of its own. -/
def add (board : StopBoard) : StopBoard :=
  ⟨board.raised ++ [false], board.handles ++ [board.raised.length]⟩

/-- Adds a handle of the same flag. -/
def share (board : StopBoard) (handle : Nat) : StopBoard :=
  { board with handles := board.handles ++ [board.flagOf handle] }

/-- Raises the flag of a handle. -/
def raise (board : StopBoard) (handle : Nat) : StopBoard :=
  { board with raised := board.raised.set (board.flagOf handle) true }

/-- Lowers the flag of a handle. -/
def lower (board : StopBoard) (handle : Nat) : StopBoard :=
  { board with raised := board.raised.set (board.flagOf handle) false }

/-- What each handle sees. -/
def view (board : StopBoard) : List Bool :=
  board.handles.map fun flag ↦ board.raised.getD flag false

end StopBoard

end TimedSafety
