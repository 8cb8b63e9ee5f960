import TimedSafety.Bound.Basic

/-!
Difference bound matrices. Over `clocks` clocks the matrix has `clocks + 1` rows and columns; index
zero stands for the reference clock that is always zero, and the cell in row `i` and column `j`
bounds the difference of clock `i` and clock `j` from above.

A matrix is stored as a vector of rows. `BoundMatrix.tabulate` and `BoundMatrix.cell` are inverse to
each other, so an operation is given by its cells and a matrix is determined by them.
-/

set_option autoImplicit false

namespace TimedSafety

/-- A row or column number: zero for the reference clock, `i` for clock `i`. -/
abbrev Index (clocks : Nat) := Fin (clocks + 1)

namespace Index

/-- The index of the reference clock. -/
abbrev reference {clocks : Nat} : Index clocks := 0

/-- All indices, in order. -/
def all (clocks : Nat) : List (Index clocks) := List.finRange (clocks + 1)

/-- The indices of the clocks, in order, without that of the reference. -/
def proper (clocks : Nat) : List (Index clocks) := (all clocks).filter (· ≠ reference)

@[simp] theorem mem_all {clocks : Nat} (i : Index clocks) : i ∈ all clocks :=
  List.mem_finRange i

@[simp] theorem mem_proper {clocks : Nat} (i : Index clocks) :
    i ∈ proper clocks ↔ i ≠ reference := by
  simp [proper]

/-- A vector with one entry per index is read at an index like any vector. -/
theorem get_eq_getElem {α : Type} {clocks : Nat} (entries : Vector α (clocks + 1))
    (i : Index clocks) : entries.get i = entries[i] := rfl

end Index

/-- A matrix of upper bounds on the differences of clocks. -/
structure BoundMatrix (clocks : Nat) where
  rows : Vector (Vector Bound (clocks + 1)) (clocks + 1)
deriving DecidableEq

namespace BoundMatrix

variable {clocks : Nat}

/-- The bound on clock `i` minus clock `j`. -/
def cell (matrix : BoundMatrix clocks) (i j : Index clocks) : Bound :=
  (matrix.rows.get i).get j

/-- The matrix with the given cells. -/
def tabulate (cells : Index clocks → Index clocks → Bound) : BoundMatrix clocks :=
  ⟨Vector.ofFn fun i ↦ Vector.ofFn fun j ↦ cells i j⟩

@[simp] theorem cell_tabulate (cells : Index clocks → Index clocks → Bound) (i j : Index clocks) :
    (tabulate cells).cell i j = cells i j := by
  simp [tabulate, cell, Index.get_eq_getElem]

/-- Matrices with the same cells are equal. -/
theorem ext_cell {left right : BoundMatrix clocks}
    (hcells : ∀ i j, left.cell i j = right.cell i j) : left = right := by
  cases left with
  | mk leftRows =>
    cases right with
    | mk rightRows =>
      congr 1
      ext i hi j hj
      exact hcells ⟨i, hi⟩ ⟨j, hj⟩

/-- The matrix with one row replaced. -/
def setRow (matrix : BoundMatrix clocks) (i : Index clocks) (row : Vector Bound (clocks + 1)) :
    BoundMatrix clocks :=
  ⟨matrix.rows.set i row⟩

/-- The matrix with one cell replaced. -/
def setCell (matrix : BoundMatrix clocks) (i j : Index clocks) (bound : Bound) :
    BoundMatrix clocks :=
  matrix.setRow i ((matrix.rows.get i).set j bound)

theorem cell_setCell (matrix : BoundMatrix clocks) (i j row column : Index clocks)
    (bound : Bound) : (matrix.setCell i j bound).cell row column =
      if row = i ∧ column = j then bound else matrix.cell row column := by
  by_cases hrow : row = i
  · subst hrow
    by_cases hcolumn : column = j
    · subst hcolumn
      simp [setCell, setRow, cell, Index.get_eq_getElem]
    · have hne : j.val ≠ column.val := fun heq ↦ hcolumn (Fin.ext heq.symm)
      simp [setCell, setRow, cell, Index.get_eq_getElem, hcolumn, Vector.getElem_set_ne, hne]
  · have hne : i.val ≠ row.val := fun heq ↦ hrow (Fin.ext heq.symm)
    simp [setCell, setRow, cell, Index.get_eq_getElem, hrow, Vector.getElem_set_ne, hne]

/-! ### Base matrices -/

/-- All clocks are non-negative and nothing else is known. -/
def top (clocks : Nat) : BoundMatrix clocks :=
  tabulate fun i j ↦ if i = j ∨ i = Index.reference then Bound.zero else Bound.infinite

/-- All clocks are zero. -/
def zero (clocks : Nat) : BoundMatrix clocks := tabulate fun _ _ ↦ Bound.zero

/-- The one form in which an empty set of valuations is written. -/
def empty (clocks : Nat) : BoundMatrix clocks := tabulate fun _ _ ↦ Bound.below 0

/-- The matrix is in the empty form. One cell tells, since emptying fills all of them. -/
def isEmpty (matrix : BoundMatrix clocks) : Bool :=
  decide (matrix.cell Index.reference Index.reference < Bound.zero)

@[simp] theorem cell_top (i j : Index clocks) :
    (top clocks).cell i j = if i = j ∨ i = Index.reference then Bound.zero else Bound.infinite := by
  simp [top]

@[simp] theorem cell_zero (i j : Index clocks) : (zero clocks).cell i j = Bound.zero := by
  simp [zero]

@[simp] theorem cell_empty (i j : Index clocks) : (empty clocks).cell i j = Bound.below 0 := by
  simp [empty]

@[simp] theorem isEmpty_empty : (empty clocks).isEmpty = true := by
  simp [isEmpty]
  decide

@[simp] theorem isEmpty_top : (top clocks).isEmpty = false := by
  simp [isEmpty]
  decide

@[simp] theorem isEmpty_zero : (zero clocks).isEmpty = false := by
  simp [isEmpty]
  decide

/-! ### Text -/

/-- A cell with blanks in front, five characters wide at least. -/
def cellText (bound : Bound) : String := "".pushn ' ' (5 - bound.text.length) ++ bound.text

def text (matrix : BoundMatrix clocks) : String :=
  String.join (matrix.rows.toList.map fun row ↦
    " ".intercalate (row.toList.map cellText) ++ "\n")

end BoundMatrix

end TimedSafety
