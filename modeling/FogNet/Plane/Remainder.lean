import FogNet.Decimal.Double

/-!
# Exact remainders of doubles

The remainder of two doubles is itself a double, so it is computed without rounding: both operands
are put on the finer of their binary grids and divided as integers.
-/

namespace FogNet

open Decimal (Double)

/-- The remainder of a truncating division, with the sign of the dividend. -/
def truncatedRemainder (value modulus : Float) : Float :=
  match Double.ofFloat? value with
  | none => 0 / 0
  | some v =>
    if modulus.isInf then value
    else
      match Double.ofFloat? modulus with
      | none => 0 / 0
      | some m =>
        if m.mantissa = 0 then 0 / 0
        else
          let grid := min v.exponent m.exponent
          let rest :=
            v.mantissa * Nat.pow 2 (v.exponent - grid).toNat
              % (m.mantissa * Nat.pow 2 (m.exponent - grid).toNat)
          let magnitude := Float.scaleB (Float.ofNat rest) grid
          if v.negative then -magnitude else magnitude

/-- The remainder moved into the range from zero to the size of the modulus. -/
def euclideanRemainder (value modulus : Float) : Float :=
  let r := truncatedRemainder value modulus
  if r < 0 then r + modulus.abs else r

end FogNet
