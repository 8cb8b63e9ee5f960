import TimedSafety.Bound.Checked
import TimedSafety.Matrix.Basic

/-!
Closure of a difference bound matrix under shortest paths. Every index is the pivot once, in
increasing order, and for each pivot every row is improved once, in increasing order, by the detours
through the pivot. The row of the pivot is read as it stands when a row is improved, also when that
row is the pivot's own. A negative cycle shows on the diagonal afterwards, and the matrix is then
made empty.
-/

set_option autoImplicit false

namespace TimedSafety.BoundMatrix

variable {clocks : Nat}

/-- Improves a row by the detours through the pivot, whose row is `through`. A row that does not
reach the pivot stays as it is. -/
def relaxRow (pivot : Index clocks) (through row : Vector Bound (clocks + 1)) :
    Except Fault (Vector Bound (clocks + 1)) :=
  match row.get pivot with
  | .infinite => .ok row
  | toPivot => Vector.ofFnM fun j ↦ do
    let detour ← toPivot.add (through.get j)
    return min detour (row.get j)

/-- Improves row `i` by the detours through the pivot. -/
def relax (pivot : Index clocks) (matrix : BoundMatrix clocks) (i : Index clocks) :
    Except Fault (BoundMatrix clocks) := do
  let row ← relaxRow pivot (matrix.rows.get pivot) (matrix.rows.get i)
  return matrix.setRow i row

/-- Improves all rows by the detours through the pivot. -/
def relaxAll (matrix : BoundMatrix clocks) (pivot : Index clocks) :
    Except Fault (BoundMatrix clocks) :=
  (Index.all clocks).foldlM (relax pivot) matrix

/-- Some index has a negative bound on its difference with itself. -/
def hasNegativeDiagonal (matrix : BoundMatrix clocks) : Bool :=
  (Index.all clocks).any fun i ↦ decide (matrix.cell i i < Bound.zero)

/-- The tightest matrix with the same valuations. -/
def close (matrix : BoundMatrix clocks) : Except Fault (BoundMatrix clocks) :=
  if matrix.isEmpty then .ok matrix
  else do
    let closed ← (Index.all clocks).foldlM relaxAll matrix
    return if closed.hasNegativeDiagonal then empty clocks else closed

end TimedSafety.BoundMatrix
