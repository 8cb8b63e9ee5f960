import TimedSafety.Matrix.Operator
import TimedSafety.Valuation

/-!
Zones: sets of clock valuations given by bounds on clocks and their differences. A zone carries its
number of clocks, because zones over different clocks can meet in one computation and that is a
fault of theirs, not an impossibility. `Zone.contains` is the meaning of a zone.
-/

set_option autoImplicit false

namespace TimedSafety

/-- A set of clock valuations, as a matrix of bounds. -/
structure Zone where
  clocks : Nat
  matrix : BoundMatrix clocks
deriving DecidableEq

namespace Zone

/-- All clocks are non-negative, and nothing else. -/
def top (clocks : Nat) : Zone := ⟨clocks, .top clocks⟩

/-- The single valuation in which all clocks are zero. -/
def zero (clocks : Nat) : Zone := ⟨clocks, .zero clocks⟩

/-- No valuation at all. -/
def bottom (clocks : Nat) : Zone := ⟨clocks, .empty clocks⟩

def isBottom (zone : Zone) : Bool := zone.matrix.isEmpty

def isTop (zone : Zone) : Bool := decide (zone.matrix = .top zone.clocks)

/-- Every valuation of one zone lies in the other. -/
def isSubset (zone other : Zone) : Except Fault Bool := zone.matrix.isSubset other.matrix

/-- The valuation obeys every bound of the matrix. -/
def obeys (zone : Zone) (valuation : Valuation) : Bool :=
  (Index.all zone.clocks).all fun i ↦
    (Index.all zone.clocks).all fun j ↦
      decide ((zone.matrix.cell i j).Admits (valuation.coordinate i - valuation.coordinate j))

/-- The valuation lies in the zone. -/
def contains (zone : Zone) (valuation : Valuation) : Except Fault Bool :=
  if valuation.clocks = zone.clocks then .ok (!zone.isBottom && zone.obeys valuation)
  else .error (.valuationSizeMismatch valuation.clocks zone.clocks)

/-- The valuations of a zone are those that it contains. -/
instance : Membership Valuation Zone := ⟨fun zone valuation ↦ zone.contains valuation = .ok true⟩

theorem mem_iff (zone : Zone) (valuation : Valuation) :
    valuation ∈ zone ↔ valuation.clocks = zone.clocks ∧ zone.isBottom = false ∧
      zone.obeys valuation = true := by
  change zone.contains valuation = .ok true ↔ _
  unfold contains
  split <;> simp_all

end Zone

end TimedSafety
