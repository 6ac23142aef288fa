/-!
# The parts of a double

A finite double is `± mantissa · 2 ^ exponent` with a natural mantissa. Everything about decimal
text and exact remainders is decided on these parts, in integer arithmetic.
-/

namespace FogNet.Decimal

/-- A finite double as sign, mantissa and power of two. -/
structure Double where
  /-- Whether the sign bit is set, also for zero. -/
  negative : Bool
  /-- The significand as an integer. -/
  mantissa : Nat
  /-- The power of two it is scaled by. -/
  exponent : Int
  /-- Whether the next smaller double is only half as far away as the next larger one. -/
  narrowBelow : Bool

namespace Double

/-- The parts of a double; infinities and NaN have none. -/
def ofFloat? (x : Float) : Option Double :=
  let bits := x.toBits.toNat
  let fraction : Nat := bits % 0x10000000000000
  let scale : Nat := bits / 0x10000000000000 % 2048
  let negative := bits / 0x8000000000000000 == 1
  if scale = 2047 then none
  else if scale = 0 then some ⟨negative, fraction, -1074, false⟩
  else
    some ⟨negative, 0x10000000000000 + fraction, (scale : Int) - 1075, fraction == 0 && scale != 1⟩

/-- The numerator of the magnitude, over `denominator`. -/
def numerator (d : Double) : Nat := d.mantissa * Nat.pow 2 d.exponent.toNat

/-- The denominator of the magnitude, a power of two. -/
def denominator (d : Double) : Nat := Nat.pow 2 (-d.exponent).toNat

end Double

end FogNet.Decimal
