/-!
The range of 64-bit words. Bounds and constants are whole numbers that must stay inside this range;
every sum and every negation is checked against it.
-/

set_option autoImplicit false

namespace TimedSafety.Word

/-- The value fits a signed 64-bit word. -/
def Fits (value : Int) : Prop := -9223372036854775808 ≤ value ∧ value ≤ 9223372036854775807

instance (value : Int) : Decidable (Fits value) := inferInstanceAs (Decidable (_ ∧ _))

/-- The number of cells that a 64-bit address can tell apart. -/
def addressLimit : Nat := 18446744073709551616

end TimedSafety.Word
