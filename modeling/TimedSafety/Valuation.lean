import TimedSafety.Fault

/-!
Clock valuations: a rational value for each clock of a model, the first value being that of clock
one. Strict bounds need values between whole numbers, so values are rationals. Reading or writing a
clock beyond the last one is a fault, as is a write below zero or a negative delay.
-/

set_option autoImplicit false

namespace TimedSafety

/-- The values of all clocks of a model, clock one first. -/
structure Valuation where
  values : List Rat
deriving DecidableEq

namespace Valuation

/-- All clocks are zero. -/
def zero (clocks : Nat) : Valuation := ⟨List.replicate clocks 0⟩

/-- The number of clocks. -/
def clocks (valuation : Valuation) : Nat := valuation.values.length

/-- The value that belongs to a row of a matrix: zero for the reference clock in row zero. -/
def coordinate (valuation : Valuation) (row : Nat) : Rat := (0 :: valuation.values).getD row 0

/-- The value of a clock. -/
def get (valuation : Valuation) (clock : Clock) : Except Fault Rat :=
  match valuation.values[clock.id - 1]? with
  | some value => .ok value
  | none => .error .indexOutOfBounds

/-- Sets a clock to a value. -/
def set (valuation : Valuation) (clock : Clock) (value : Rat) : Except Fault Valuation :=
  if value < 0 then .error (.negativeClock clock value)
  else if clock.id ≤ valuation.clocks then .ok ⟨valuation.values.set (clock.id - 1) value⟩
  else .error .indexOutOfBounds

/-- The valuation some time later. -/
def later (valuation : Valuation) (delay : Rat) : Valuation :=
  ⟨valuation.values.map (· + delay)⟩

/-- Lets time pass. -/
def delay (valuation : Valuation) (duration : Rat) : Except Fault Valuation :=
  if duration < 0 then .error (.negativeDelay duration) else .ok (valuation.later duration)

def text (valuation : Valuation) : String :=
  let entries := valuation.values.zipIdx.map fun (value, i) ↦ s!"c{i + 1}={Rational.text value}"
  "(" ++ ", ".intercalate entries ++ ")"

end Valuation

end TimedSafety
