/-!
The text of a rational number: the reduced fraction, without its denominator where that is one.
-/

set_option autoImplicit false

namespace TimedSafety.Rational

def text (value : Rat) : String :=
  if value.den = 1 then s!"{value.num}" else s!"{value.num}/{value.den}"

end TimedSafety.Rational
