import FogNet.Decimal.Rounding

/-!
# Reading decimals

A decimal text becomes the nearest double. Exponents far outside the range of doubles are decided
without computing the power of ten.
-/

namespace FogNet.Decimal

/-- The value of a decimal digit. -/
def digitValue (c : Char) : Nat := c.toNat - '0'.toNat

/-- The number that a run of decimal digits stands for. -/
def ofDigits (text : List Char) : Nat := text.foldl (fun n c => 10 * n + digitValue c) 0

/-- The double nearest to `digits · 10 ^ exponent`; beyond the range it is zero or infinite. -/
def nearest (digits : Nat) (exponent : Int) : Float :=
  if digits = 0 then 0
  else
    let lead := (digitCount digits : Int) + exponent
    if 400 < lead then 1 / 0
    else if lead < -400 then 0
    else toNearest false digits exponent

/-- The double nearest to a decimal given by its parts: digits before and after the point, and the
exponent. -/
def ofParts (whole fraction : List Char) (exponent : Int) : Float :=
  nearest (ofDigits (whole ++ fraction)) (exponent - (fraction.length : Int))

/-- A number with an optional sign from a run of digits. -/
def signedDigits (negative : Bool) (digits : List Char) : Int :=
  if negative then -(ofDigits digits : Int) else (ofDigits digits : Int)

end FogNet.Decimal
