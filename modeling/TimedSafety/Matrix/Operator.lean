import TimedSafety.Bound.Checked
import TimedSafety.Matrix.Basic

/-!
Operators on difference bound matrices: tightening one cell, letting time pass forwards and
backwards, forgetting, setting, copying and shifting a clock, and inclusion.

Setting, copying, shifting and forgetting a clock change only the row and the column of that clock;
`BoundMatrix.replaceCross` is this common shape. Row and column are computed index by index, the row
entry before the column entry, which fixes the overflow that is reported first.
-/

set_option autoImplicit false

namespace TimedSafety.BoundMatrix

variable {clocks : Nat}

/-! ### Tightening -/

/-- Tightens the cell in row `i` and column `j` to the bound. A bound that contradicts the opposite
cell makes the matrix empty, and an empty matrix stays empty. -/
def constrain (matrix : BoundMatrix clocks) (i j : Index clocks) (bound : Bound) :
    Except Fault (BoundMatrix clocks) :=
  if matrix.isEmpty then .ok matrix
  else do
    let cycle ← bound.add (matrix.cell j i)
    return if cycle < Bound.zero then empty clocks
      else if bound < matrix.cell i j then matrix.setCell i j bound
      else matrix

/-! ### Time -/

/-- Drops the upper bounds of all clocks. -/
def up (matrix : BoundMatrix clocks) : BoundMatrix clocks :=
  tabulate fun i j ↦
    if i ≠ Index.reference ∧ j = Index.reference then .infinite else matrix.cell i j

@[simp] theorem cell_up (matrix : BoundMatrix clocks) (i j : Index clocks) :
    matrix.up.cell i j =
      if i ≠ Index.reference ∧ j = Index.reference then .infinite else matrix.cell i j := by
  simp [up]

/-- The tightest of `≤ 0` and the bounds of all clocks against clock `j`. -/
def lowestAgainst (matrix : BoundMatrix clocks) (j : Index clocks) : Bound :=
  (Index.proper clocks).foldl
    (fun lowest i ↦ min lowest (matrix.cell i j)) Bound.zero

/-- Lowers the lower bounds of all clocks as far as their differences allow. -/
def down (matrix : BoundMatrix clocks) : BoundMatrix clocks :=
  tabulate fun i j ↦
    if i = Index.reference ∧ j ≠ Index.reference then matrix.lowestAgainst j
    else matrix.cell i j

@[simp] theorem cell_down (matrix : BoundMatrix clocks) (i j : Index clocks) :
    matrix.down.cell i j =
      if i = Index.reference ∧ j ≠ Index.reference then matrix.lowestAgainst j
      else matrix.cell i j := by
  simp [down]

/-! ### One clock -/

/-- Replaces the row and the column of one index, except for its diagonal cell. -/
def replaceCross (matrix : BoundMatrix clocks) (x : Index clocks)
    (row column : Index clocks → Bound) : BoundMatrix clocks :=
  tabulate fun i j ↦
    if i = j then matrix.cell i j
    else if i = x then row j
    else if j = x then column i
    else matrix.cell i j

@[simp] theorem cell_replaceCross (matrix : BoundMatrix clocks) (x i j : Index clocks)
    (row column : Index clocks → Bound) : (matrix.replaceCross x row column).cell i j =
      if i = j then matrix.cell i j
      else if i = x then row j
      else if j = x then column i
      else matrix.cell i j := by
  simp [replaceCross]

/-- The row and column entries of an index, each pair computed from the other index. -/
def crossEntries (x : Index clocks) (entry : Index clocks → Except Fault (Bound × Bound)) :
    Except Fault (Vector (Bound × Bound) (clocks + 1)) :=
  Vector.ofFnM fun i ↦ if i = x then .ok (Bound.zero, Bound.zero) else entry i

/-- Forgets all about an index except that it is not below the reference. -/
def free (matrix : BoundMatrix clocks) (x : Index clocks) : BoundMatrix clocks :=
  matrix.replaceCross x (fun _ ↦ .infinite) (fun i ↦ matrix.cell i Index.reference)

@[simp] theorem cell_free (matrix : BoundMatrix clocks) (x i j : Index clocks) :
    (matrix.free x).cell i j =
      if i = j then matrix.cell i j
      else if i = x then .infinite
      else if j = x then matrix.cell i Index.reference
      else matrix.cell i j := by
  simp [free]

/-- Sets an index to a constant above the reference. -/
def reset (matrix : BoundMatrix clocks) (x : Index clocks) (value : Int) :
    Except Fault (BoundMatrix clocks) := do
  let entries ← crossEntries x fun i ↦ do
    let outgoing ← (Bound.atMost value).add (matrix.cell Index.reference i)
    let opposite ← Word.negate value
    let incoming ← (matrix.cell i Index.reference).add (Bound.atMost opposite)
    return (outgoing, incoming)
  return matrix.replaceCross x (fun j ↦ (entries.get j).1) (fun i ↦ (entries.get i).2)

/-- Sets an index equal to another. -/
def copy (matrix : BoundMatrix clocks) (x y : Index clocks) : BoundMatrix clocks :=
  if x = y then matrix
  else matrix.replaceCross x
    (fun j ↦ if j = y then Bound.zero else matrix.cell y j)
    (fun i ↦ if i = y then Bound.zero else matrix.cell i y)

/-- Moves an index by an offset, and keeps only what does not fall below the reference. -/
def shift (matrix : BoundMatrix clocks) (x : Index clocks) (offset : Int) :
    Except Fault (BoundMatrix clocks) := do
  let entries ← crossEntries x fun i ↦ do
    let outgoing ← (matrix.cell x i).add (Bound.atMost offset)
    let opposite ← Word.negate offset
    let incoming ← (matrix.cell i x).add (Bound.atMost opposite)
    return (outgoing, incoming)
  let moved := matrix.replaceCross x (fun j ↦ (entries.get j).1) (fun i ↦ (entries.get i).2)
  moved.constrain Index.reference x Bound.zero

/-! ### Inclusion -/

/-- Every cell of one matrix is at most the cell of the other. -/
def cellsLe (left right : BoundMatrix clocks) : Bool :=
  (Index.all clocks).all fun i ↦
    (Index.all clocks).all fun j ↦ decide (left.cell i j ≤ right.cell i j)

/-- One closed matrix holds no valuation outside another. -/
def isSubset {otherClocks : Nat} (matrix : BoundMatrix clocks) (other : BoundMatrix otherClocks) :
    Except Fault Bool :=
  if hsize : otherClocks = clocks then
    .ok (matrix.isEmpty || (!other.isEmpty && matrix.cellsLe (hsize ▸ other)))
  else .error .matrixSizeMismatch

end TimedSafety.BoundMatrix
