import TimedSafety.Automaton.Basic

/-!
Images of zones along the moves of an automaton. The image after a move lets time pass at the source
unless that is urgent, keeps to its invariants, runs the commands in order and keeps to the
invariants of the target. The image before a move undoes the commands in reverse order, keeps to the
invariants of the target, goes back in time and keeps to the invariants of the source; only resets
and guards can be undone.
-/

set_option autoImplicit false

namespace TimedSafety

namespace Draft

variable {clocks : Nat}

/-- Lets time pass, except at an urgent location. -/
def delay (draft : Draft clocks) (urgent : Bool) : Except Fault (Draft clocks) :=
  if urgent then .ok draft else draft.up

/-- Goes back in time, except at an urgent location. -/
def undelay (draft : Draft clocks) (urgent : Bool) : Except Fault (Draft clocks) :=
  if urgent then .ok draft else draft.down

/-- Undoes a command of an edge. -/
def undo (edge : EdgeId) (draft : Draft clocks) : Command → Except Fault (Draft clocks)
  | .reset clock value => do
    let exactly ← Constraint.unit clock .equal value
    let hit ← draft.restrict exactly
    hit.free clock
  | .guard constraint => draft.restrict constraint
  | command => .error (.irreversible command.text edge)

end Draft

/-- What a zone becomes while time passes within the invariants of a location. -/
def Zone.elapse (zone : Zone) (urgent : Bool) (invariants : List Constraint) :
    Except Fault Zone := do
  let delayed ← zone.draft.delay urgent
  let waiting ← delayed.restrictAll invariants
  waiting.finish

namespace Move

/-- The valuations in which a move from the zone can end. -/
def post (move : Move) (zone : Zone) : Except Fault Zone := do
  let delayed ← zone.draft.delay move.sourceUrgent
  let waiting ← delayed.restrictAll move.sourceInvariants
  let executed ← waiting.executeAll move.commands
  let arrived ← executed.restrictAll move.targetInvariants
  arrived.finish

/-- The valuations from which a move can end in the zone. -/
def pre (move : Move) (zone : Zone) : Except Fault Zone := do
  let undone ← move.commands.reverse.foldlM (Draft.undo move.edge) zone.draft
  let arrived ← undone.restrictAll move.targetInvariants
  let delayed ← arrived.undelay move.sourceUrgent
  let waiting ← delayed.restrictAll move.sourceInvariants
  waiting.finish

/-- The image after the move as a list, empty if nothing is reached. -/
def successors (move : Move) (zone : Zone) : Except Fault (List Zone) := do
  let image ← move.post zone
  return if image.isBottom then [] else [image]

/-- The image before the move as a list, empty if nothing leads there. -/
def predecessors (move : Move) (zone : Zone) : Except Fault (List Zone) := do
  let image ← move.pre zone
  return if image.isBottom then [] else [image]

/-- All commands of the move can be undone. -/
def isReversible (move : Move) : Bool := move.commands.all Command.isReversible

end Move

end TimedSafety
