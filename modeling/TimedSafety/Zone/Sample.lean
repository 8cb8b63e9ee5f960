import TimedSafety.Zone.Basic

/-!
Picking a valuation of a zone. Clocks get their values in order. The bounds of a clock against those
that already have values leave an interval: its lower end is taken where it belongs to the interval,
otherwise the middle, or one more than the lower end if there is no upper one. On a closed matrix
every choice made this way can be continued.
-/

set_option autoImplicit false

namespace TimedSafety

/-- An end of an interval; a strict end does not belong to it. -/
structure Endpoint where
  value : Rat
  strict : Bool
deriving DecidableEq

namespace Endpoint

/-- The higher of two lower ends. -/
def raise (lower next : Endpoint) : Endpoint :=
  if lower.value < next.value ∨ (next.value = lower.value ∧ next.strict ∧ !lower.strict) then next
  else lower

/-- The lower of two upper ends, the first of which may be missing. -/
def lowerTo (upper : Option Endpoint) (next : Endpoint) : Option Endpoint :=
  match upper with
  | none => some next
  | some current =>
    if next.value < current.value ∨ (next.value = current.value ∧ next.strict ∧ !current.strict)
    then some next
    else some current

/-- A value between the ends. -/
def pick (lower : Endpoint) (upper : Option Endpoint) : Rat :=
  if lower.strict then
    match upper with
    | none => lower.value + 1
    | some high => (lower.value + high.value) / 2
  else lower.value

end Endpoint

namespace BoundMatrix

variable {clocks : Nat}

/-- The lower end that the clocks with values leave for clock `k`; no clock is below zero. -/
def lowerEnd (matrix : BoundMatrix clocks) (assigned : List (Index clocks × Rat))
    (k : Index clocks) : Endpoint :=
  assigned.foldl (fun lower (j, value) ↦
    match matrix.cell j k with
    | .infinite => lower
    | .finite bound strict => lower.raise ⟨value - bound, strict⟩) ⟨0, false⟩

/-- The upper end that the clocks with values leave for clock `k`. -/
def upperEnd (matrix : BoundMatrix clocks) (assigned : List (Index clocks × Rat))
    (k : Index clocks) : Option Endpoint :=
  assigned.foldl (fun upper (j, value) ↦
    match matrix.cell k j with
    | .infinite => upper
    | .finite bound strict => Endpoint.lowerTo upper ⟨value + bound, strict⟩) none

/-- Gives clock `k` a value. -/
def assign (matrix : BoundMatrix clocks) (assigned : List (Index clocks × Rat))
    (k : Index clocks) : List (Index clocks × Rat) :=
  assigned ++ [(k, Endpoint.pick (matrix.lowerEnd assigned k) (matrix.upperEnd assigned k))]

/-- Values for the reference and all clocks, in order. -/
def assignment (matrix : BoundMatrix clocks) : List (Index clocks × Rat) :=
  (Index.proper clocks).foldl matrix.assign [(Index.reference, 0)]

end BoundMatrix

namespace Zone

/-- A valuation of the zone, unless it has none. -/
def sample (zone : Zone) : Option Valuation :=
  if zone.isBottom then none else some ⟨(zone.matrix.assignment.drop 1).map (·.2)⟩

end Zone

end TimedSafety
