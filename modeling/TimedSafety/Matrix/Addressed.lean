import TimedSafety.Matrix.Closure
import TimedSafety.Matrix.Operator

/-!
Matrix operators for callers that name rows and columns by bare numbers. A pair of numbers is an
address into the cells laid out row after row: it names a cell as soon as the address is that of
one, and is out of bounds beyond the last. Numbers below the size of the matrix name the row and
column they say, so there the operators are those on indices.
-/

set_option autoImplicit false

namespace TimedSafety.BoundMatrix

variable {clocks : Nat}

/-- The cell that a row and a column number address. -/
def resolve (clocks row column : Nat) : Except Fault (Index clocks × Index clocks) :=
  let address := row * (clocks + 1) + column
  if Word.addressLimit ≤ address then .error .wordOverflow
  else if hrow : address / (clocks + 1) < clocks + 1 then
    .ok (⟨address / (clocks + 1), hrow⟩,
      ⟨address % (clocks + 1), Nat.mod_lt address (Nat.succ_pos clocks)⟩)
  else .error .indexOutOfBounds

/-- Numbers below the size of the matrix address their own row and column. -/
theorem resolve_index (i j : Index clocks)
    (hsize : (clocks + 1) * (clocks + 1) ≤ Word.addressLimit) :
    resolve clocks i j = .ok (i, j) := by
  have hbound : i.val * (clocks + 1) + j.val < (clocks + 1) * (clocks + 1) := by
    have hi := i.isLt
    have hj := j.isLt
    calc i.val * (clocks + 1) + j.val < i.val * (clocks + 1) + (clocks + 1) := by omega
      _ = (i.val + 1) * (clocks + 1) := by rw [Nat.succ_mul]
      _ ≤ (clocks + 1) * (clocks + 1) := Nat.mul_le_mul_right _ hi
  have hdiv : (i.val * (clocks + 1) + j.val) / (clocks + 1) = i.val := by
    rw [Nat.mul_comm, Nat.mul_add_div (Nat.succ_pos clocks), Nat.div_eq_of_lt j.isLt, Nat.add_zero]
  have hmod : (i.val * (clocks + 1) + j.val) % (clocks + 1) = j.val := by
    rw [Nat.mul_comm, Nat.mul_add_mod, Nat.mod_eq_of_lt j.isLt]
  unfold resolve
  simp only [hdiv, hmod, i.isLt, dite_true]
  rw [if_neg (by omega)]

/-- The index of a number, or the fault of addressing the given column in its row. -/
def indexOf (clocks row column : Nat) : Except Fault (Index clocks) :=
  if hrow : row < clocks + 1 then .ok ⟨row, hrow⟩
  else do
    let (i, _) ← resolve clocks row column
    return i

/-- Tightens an addressed cell. The opposite cell is read first, and a contradiction with it empties
the matrix before the cell itself is looked up. -/
def constrainAt (matrix : BoundMatrix clocks) (row column : Nat) (bound : Bound) :
    Except Fault (BoundMatrix clocks) :=
  if matrix.isEmpty then .ok matrix
  else do
    let (j, i) ← resolve clocks column row
    let cycle ← bound.add (matrix.cell j i)
    if cycle < Bound.zero then return empty clocks
    let (i, j) ← resolve clocks row column
    return if bound < matrix.cell i j then matrix.setCell i j bound else matrix

/-- Forgets all about a numbered clock. -/
def freeAt (matrix : BoundMatrix clocks) (x : Nat) : Except Fault (BoundMatrix clocks) := do
  let x ← indexOf clocks x 0
  return matrix.free x

/-- Sets a numbered clock to a constant. -/
def resetAt (matrix : BoundMatrix clocks) (x : Nat) (value : Int) :
    Except Fault (BoundMatrix clocks) := do
  let x ← indexOf clocks x 0
  matrix.reset x value

/-- Sets a numbered clock equal to another. A number copied to itself is not looked up. -/
def copyAt (matrix : BoundMatrix clocks) (x y : Nat) : Except Fault (BoundMatrix clocks) :=
  if x = y then .ok matrix
  else do
    let y ← indexOf clocks y (if x = 0 then 1 else 0)
    let x ← indexOf clocks x 0
    return matrix.copy x y

/-- Moves a numbered clock by an offset. -/
def shiftAt (matrix : BoundMatrix clocks) (x : Nat) (offset : Int) :
    Except Fault (BoundMatrix clocks) := do
  let x ← indexOf clocks x 0
  matrix.shift x offset

end TimedSafety.BoundMatrix
