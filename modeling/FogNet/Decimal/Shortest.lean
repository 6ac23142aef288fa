import FogNet.Decimal.Rounding

/-!
# The fewest digits that read back

Every double is the nearest double to a whole interval of decimals. `shortest` walks the decimal
grids from one significant digit upwards and stops at the first grid of which one of the two
neighbours of the value lies in that interval; of two it takes the nearer, of two equally near the
even one. What it returns passes the interval test (`readsBack_of_onGrid?`).
-/

namespace FogNet.Decimal

/-- A decimal `digits · 10 ^ exponent`. -/
structure Digits where
  /-- The significant digits as an integer. -/
  digits : Nat
  /-- The power of ten they are scaled by. -/
  exponent : Int

/-- Whether a decimal is read as the double: it lies no further than half way to the neighbours,
and on a half-way point only if the mantissa is even. -/
def Digits.readsBack (c : Digits) (d : Double) : Bool :=
  let value := c.digits * Nat.pow 10 c.exponent.toNat * Nat.pow 2 (2 - d.exponent).toNat
  let unit := Nat.pow 10 (-c.exponent).toNat * Nat.pow 2 (d.exponent - 2).toNat
  let low := (4 * d.mantissa - if d.narrowBelow then 1 else 2) * unit
  let high := (4 * d.mantissa + 2) * unit
  if d.mantissa % 2 = 0 then decide (low ≤ value) && decide (value ≤ high)
  else decide (low < value) && decide (value < high)

/-- The decimal on the grid of step `10 ^ unit` that reads back and is nearest to the value. -/
def onGrid? (d : Double) (unit : Int) : Option Digits :=
  let num := d.numerator * Nat.pow 10 (-unit).toNat
  let den := d.denominator * Nat.pow 10 unit.toNat
  let below : Digits := ⟨num / den, unit⟩
  let above : Digits := ⟨num / den + 1, unit⟩
  let nearest : Digits := ⟨roundDiv num den, unit⟩
  if below.readsBack d && above.readsBack d && nearest.readsBack d then some nearest
  else if below.readsBack d then some below
  else if above.readsBack d then some above
  else none

theorem readsBack_of_onGrid? {d : Double} {unit : Int} {c : Digits}
    (h : onGrid? d unit = some c) : c.readsBack d = true := by
  unfold onGrid? at h
  simp only at h
  split at h
  · cases h; simp_all
  · split at h
    · cases h; assumption
    · split at h
      · cases h; assumption
      · cases h

/-- Drop the zeros at the end of the digits, of which there are at most `fuel`. -/
def Digits.trim : Nat → Digits → Digits
  | 0, c => c
  | fuel + 1, c =>
    if c.digits ≠ 0 ∧ c.digits % 10 = 0 then trim fuel ⟨c.digits / 10, c.exponent + 1⟩ else c

/-- The shortest decimal that is read as the given nonzero double; seventeen digits always do. -/
def shortest (d : Double) : Digits :=
  let lead := leadingExponent d.numerator d.denominator
  let found := (List.range 17).findSome? fun n : Nat => onGrid? d (lead - (n : Int))
  (found.getD ⟨0, 0⟩).trim 20

end FogNet.Decimal
