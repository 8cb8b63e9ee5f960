import TimedSafety.Command
import TimedSafety.Matrix.Closure
import TimedSafety.Zone.Basic

/-!
Drafts: zones under construction. Tightening a bound leaves the matrix loose, that is, perhaps not
closed; the operators that read a closed matrix close a loose one first, and `Draft.finish` closes
it before it becomes a zone again. So closure is done once per group of tightenings.

Every operation checks the clocks it is given, then its constant, and only then touches the matrix.
`ZoneStep` names the operations as data, and `Draft.run` carries out a list of them.
-/

set_option autoImplicit false

namespace TimedSafety

/-- A zone under construction. The matrix of a loose draft may have to be closed. -/
structure Draft (clocks : Nat) where
  matrix : BoundMatrix clocks
  loose : Bool

/-- Starts from a finished zone. -/
def Zone.draft (zone : Zone) : Draft zone.clocks := ⟨zone.matrix, false⟩

namespace Draft

variable {clocks : Nat}

/-- The index of a clock of the draft. -/
def indexOf (clocks : Nat) (clock : Clock) : Except Fault (Index clocks) :=
  if hclock : clock.id ≤ clocks then .ok ⟨clock.id, Nat.lt_succ_of_le hclock⟩
  else .error (.clockOutOfRange clock clocks)

/-- Closes the matrix of a loose draft. -/
def settle (draft : Draft clocks) : Except Fault (Draft clocks) :=
  if draft.loose then do
    let closed ← draft.matrix.close
    return ⟨closed, false⟩
  else .ok draft

/-- The finished zone. -/
def finish (draft : Draft clocks) : Except Fault Zone := do
  let settled ← draft.settle
  return ⟨clocks, settled.matrix⟩

/-! ### Intersection -/

/-- Tightens one cell. The draft is loose afterwards unless it became empty. -/
def tighten (draft : Draft clocks) (i j : Index clocks) (bound : Bound) :
    Except Fault (Draft clocks) := do
  let matrix ← draft.matrix.constrain i j bound
  return ⟨matrix, !matrix.isEmpty⟩

/-- Tightens the cells of a comparison of index `i` with index `j`. -/
def compare (draft : Draft clocks) (i j : Index clocks) (comparison : Comparison) (bound : Int) :
    Except Fault (Draft clocks) :=
  match comparison with
  | .less => draft.tighten i j (.below bound)
  | .atMost => draft.tighten i j (.atMost bound)
  | .equal => do
    let upper ← draft.tighten i j (.atMost bound)
    let opposite ← Word.negate bound
    upper.tighten j i (.atMost opposite)
  | .atLeast => do
    let opposite ← Word.negate bound
    draft.tighten j i (.atMost opposite)
  | .greater => do
    let opposite ← Word.negate bound
    draft.tighten j i (.below opposite)

/-- Keeps the valuations of which a constraint is true. -/
def restrict (draft : Draft clocks) (constraint : Constraint) : Except Fault (Draft clocks) :=
  match constraint with
  | .always => .ok draft
  | .never => .ok ⟨.empty clocks, false⟩
  | .compare left none comparison bound => do
    let i ← indexOf clocks left
    draft.compare i Index.reference comparison bound
  | .compare left (some right) comparison bound => do
    let i ← indexOf clocks left
    let j ← indexOf clocks right
    draft.compare i j comparison bound

/-- Keeps the valuations of which all constraints are true. -/
def restrictAll (draft : Draft clocks) (constraints : List Constraint) :
    Except Fault (Draft clocks) :=
  constraints.foldlM restrict draft

/-- All pairs of indices, row after row. -/
def pairs (clocks : Nat) : List (Index clocks × Index clocks) :=
  (Index.all clocks).flatMap fun i ↦
    (Index.all clocks).map fun j ↦ (i, j)

/-- Tightens all cells to those of a matrix that is not empty. -/
def meetCells (draft : Draft clocks) (matrix : BoundMatrix clocks) :
    Except Fault (Draft clocks) :=
  (pairs clocks).foldlM (fun draft (i, j) ↦
    if i = j ∨ matrix.cell i j = .infinite then .ok draft
    else draft.tighten i j (matrix.cell i j)) draft

/-- Keeps the valuations of another zone. -/
def meet (draft : Draft clocks) (zone : Zone) : Except Fault (Draft clocks) :=
  if hsize : zone.clocks = clocks then
    if zone.isBottom then .ok ⟨.empty clocks, false⟩
    else draft.meetCells (hsize ▸ zone.matrix)
  else .error .zoneSizeMismatch

/-! ### Operators on closed matrices -/

/-- Applies an operator to the closed matrix, unless it is empty. -/
def onClosed (draft : Draft clocks)
    (operator : BoundMatrix clocks → Except Fault (Draft clocks)) :
    Except Fault (Draft clocks) := do
  let settled ← draft.settle
  if settled.matrix.isEmpty then return settled else operator settled.matrix

/-- Lets any time pass. -/
def up (draft : Draft clocks) : Except Fault (Draft clocks) :=
  draft.onClosed fun matrix ↦ .ok ⟨matrix.up, false⟩

/-- Goes back to where time can lead into the draft. -/
def down (draft : Draft clocks) : Except Fault (Draft clocks) :=
  draft.onClosed fun matrix ↦ .ok ⟨matrix.down, false⟩

/-- Lets a clock take any value. -/
def free (draft : Draft clocks) (clock : Clock) : Except Fault (Draft clocks) := do
  let x ← indexOf clocks clock
  draft.onClosed fun matrix ↦ .ok ⟨matrix.free x, false⟩

/-- Sets a clock to a constant. -/
def reset (draft : Draft clocks) (clock : Clock) (value : Int) : Except Fault (Draft clocks) := do
  let x ← indexOf clocks clock
  checkConstant value (Command.reset clock value).text
  draft.onClosed fun matrix ↦ do
    let after ← matrix.reset x value
    return ⟨after, false⟩

/-- Sets a clock equal to another. -/
def copy (draft : Draft clocks) (clock source : Clock) : Except Fault (Draft clocks) := do
  let x ← indexOf clocks clock
  let y ← indexOf clocks source
  draft.onClosed fun matrix ↦ .ok ⟨matrix.copy x y, false⟩

/-- Moves a clock by a constant. -/
def shift (draft : Draft clocks) (clock : Clock) (offset : Int) :
    Except Fault (Draft clocks) := do
  let x ← indexOf clocks clock
  checkConstant offset (Command.shift clock offset).text
  draft.onClosed fun matrix ↦ do
    let after ← matrix.shift x offset
    return ⟨after, !after.isEmpty⟩

/-- Carries out a command. -/
def execute (draft : Draft clocks) : Command → Except Fault (Draft clocks)
  | .reset clock value => draft.reset clock value
  | .guard constraint => draft.restrict constraint
  | .copy clock source => draft.copy clock source
  | .shift clock offset => draft.shift clock offset
  | .free clock => draft.free clock

/-- Carries out commands one after the other. -/
def executeAll (draft : Draft clocks) (commands : List Command) : Except Fault (Draft clocks) :=
  commands.foldlM execute draft

end Draft

/-! ### Operations as data -/

/-- An operation on a draft. -/
inductive ZoneStep where
  | restrict (constraint : Constraint)
  | meet (zone : Zone)
  | up
  | down
  | free (clock : Clock)
  | reset (clock : Clock) (value : Int)
  | copy (clock source : Clock)
  | shift (clock : Clock) (offset : Int)
  | execute (command : Command)
  | settle

namespace Draft

variable {clocks : Nat}

/-- Carries out one operation. -/
def apply (draft : Draft clocks) : ZoneStep → Except Fault (Draft clocks)
  | .restrict constraint => draft.restrict constraint
  | .meet zone => draft.meet zone
  | .up => draft.up
  | .down => draft.down
  | .free clock => draft.free clock
  | .reset clock value => draft.reset clock value
  | .copy clock source => draft.copy clock source
  | .shift clock offset => draft.shift clock offset
  | .execute command => draft.execute command
  | .settle => draft.settle

/-- Carries out operations one after the other. -/
def run (draft : Draft clocks) (steps : List ZoneStep) : Except Fault (Draft clocks) :=
  steps.foldlM apply draft

end Draft

namespace Zone

/-- The zone after the operations. -/
def transform (zone : Zone) (steps : List ZoneStep) : Except Fault Zone := do
  let draft ← zone.draft.run steps
  draft.finish

/-- The part of a zone in which a constraint is true. -/
def restrict (zone : Zone) (constraint : Constraint) : Except Fault Zone := do
  let draft ← zone.draft.restrict constraint
  draft.finish

/-- The part of a zone in which all constraints are true. -/
def restrictAll (zone : Zone) (constraints : List Constraint) : Except Fault Zone := do
  let draft ← zone.draft.restrictAll constraints
  draft.finish

/-- The common part of two zones. -/
def meet (zone other : Zone) : Except Fault Zone := do
  let draft ← zone.draft.meet other
  draft.finish

/-- Two zones have a common part. -/
def meets (zone other : Zone) : Except Fault Bool := do
  let common ← zone.meet other
  return !common.isBottom

end Zone

end TimedSafety
