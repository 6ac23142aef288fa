import FogNet.Decimal.Double

/-!
# Rounding to a decimal grid

`roundDiv` rounds a quotient to the nearest integer and sends a tie to the even one; the lemmas
`roundDiv_mul_le` and `le_roundDiv_mul` place its result within half a unit. From it come the text
with a fixed number of places and the doubles nearest to a value cut to some places or digits.
-/

namespace FogNet.Decimal

/-- The quotient rounded to the nearest integer, a tie to the even one. -/
def roundDiv (num den : Nat) : Nat :=
  let q := num / den
  let twice := 2 * (num % den)
  if twice < den then q
  else if den < twice then q + 1
  else q + q % 2

/-- The rounded quotient lies at most half a unit above the exact one. -/
theorem roundDiv_mul_le (num : Nat) {den : Nat} (h : 0 < den) :
    2 * (roundDiv num den * den) ≤ 2 * num + den := by
  have hm := Nat.mod_lt num h
  have hd := Nat.div_add_mod num den
  rw [Nat.mul_comm] at hd
  have h2 : num / den % 2 = 0 ∨ num / den % 2 = 1 := by omega
  unfold roundDiv
  simp only
  split
  · omega
  · split
    · rw [Nat.add_mul]; omega
    · rcases h2 with h2 | h2 <;> rw [h2, Nat.add_mul] <;> omega

/-- The rounded quotient lies at most half a unit below the exact one. -/
theorem le_roundDiv_mul (num : Nat) {den : Nat} (h : 0 < den) :
    2 * num ≤ 2 * (roundDiv num den * den) + den := by
  have hm := Nat.mod_lt num h
  have hd := Nat.div_add_mod num den
  rw [Nat.mul_comm] at hd
  have h2 : num / den % 2 = 0 ∨ num / den % 2 = 1 := by omega
  unfold roundDiv
  simp only
  split
  · omega
  · split
    · rw [Nat.add_mul]; omega
    · rcases h2 with h2 | h2 <;> rw [h2, Nat.add_mul] <;> omega

/-- The number of decimal digits of a natural number. -/
def digitCount (n : Nat) : Nat := (Nat.toDigits 10 n).length

/-- The decimal exponent of the leading digit of a positive fraction. -/
def leadingExponent (num den : Nat) : Int :=
  let guess : Int := (digitCount num : Int) - digitCount den
  if den * Nat.pow 10 guess.toNat ≤ num * Nat.pow 10 (-guess).toNat then guess else guess - 1

/-- The double nearest to `± digits · 10 ^ exponent`. -/
def toNearest (negative : Bool) (digits : Nat) (exponent : Int) : Float :=
  let magnitude :=
    if 0 ≤ exponent then Float.ofScientific (digits * Nat.pow 10 exponent.toNat) false 0
    else Float.ofScientific digits true (-exponent).toNat
  if negative then -magnitude else magnitude

/-- A value rounded to a number of decimal places; what is not finite stays as it is. -/
def roundPlaces (places : Nat) (x : Float) : Float :=
  match Double.ofFloat? x with
  | none => x
  | some d =>
    toNearest d.negative (roundDiv (d.numerator * Nat.pow 10 places) d.denominator)
      (-(places : Int))

/-- A value rounded to a number of significant digits; zero and what is not finite stay. -/
def roundDigits (digits : Nat) (x : Float) : Float :=
  match Double.ofFloat? x with
  | none => x
  | some d =>
    if d.mantissa = 0 then x
    else
      let unit := leadingExponent d.numerator d.denominator - ((digits : Int) - 1)
      toNearest d.negative
        (roundDiv (d.numerator * Nat.pow 10 (-unit).toNat)
          (d.denominator * Nat.pow 10 unit.toNat)) unit

/-- The text of a value that is not finite. -/
def specialText (x : Float) : String :=
  if x.isNaN then "NaN" else if x < 0 then "-inf" else "inf"

/-- Digits with a point before the last `places` of them and at least one before the point. -/
def pointed (digits places : Nat) : String :=
  let text := Nat.toDigits 10 digits
  let text := List.replicate (places + 1 - text.length) '0' ++ text
  let whole := text.take (text.length - places)
  let rest := text.drop (text.length - places)
  String.ofList (if places = 0 then whole else whole ++ '.' :: rest)

/-- The text of a value with a fixed number of places: the exact value, a tie to the even digit,
and a minus sign whenever the sign bit is set. -/
def fixedText (places : Nat) (x : Float) : String :=
  match Double.ofFloat? x with
  | none => specialText x
  | some d =>
    let text := pointed (roundDiv (d.numerator * Nat.pow 10 places) d.denominator) places
    if d.negative then "-" ++ text else text

end FogNet.Decimal
