import Mathlib.Data.Rat.Floor
import FogNet.Plane.Coordinate

/-!
# Rational coordinates

The instance over which the geometry is exact: nothing is rounded, every number compares with every
other, and the remainder by a positive modulus lies in `[0, modulus)` (`remainder_nonneg`,
`remainder_lt`).
-/

namespace FogNet

/-- Rational numbers, where nothing is rounded. -/
instance : Coordinate ℚ where
  decLt := fun a b => inferInstanceAs (Decidable (a < b))
  decLe := fun a b => inferInstanceAs (Decidable (a ≤ b))
  remainder v m := v - |m| * ⌊v / |m|⌋
  ofTicks n := n
  least l := l.foldl lesser (l.headD 0)
  greatest l := l.foldl larger (l.headD 0)

namespace Coordinate

theorem remainder_rat (v m : ℚ) : remainder v m = v - |m| * ⌊v / |m|⌋ := rfl

/-- A remainder by a nonzero modulus is not negative. -/
theorem remainder_nonneg (v : ℚ) {m : ℚ} (h : m ≠ 0) : 0 ≤ remainder v m := by
  have hm : 0 < |m| := abs_pos.mpr h
  have hf : (⌊v / |m|⌋ : ℚ) ≤ v / |m| := Int.floor_le _
  rw [le_div_iff₀ hm, mul_comm] at hf
  rw [remainder_rat]
  exact sub_nonneg.mpr hf

/-- A remainder by a nonzero modulus is smaller than the size of the modulus. -/
theorem remainder_lt (v : ℚ) {m : ℚ} (h : m ≠ 0) : remainder v m < |m| := by
  have hm : 0 < |m| := abs_pos.mpr h
  have hf : v / |m| < (⌊v / |m|⌋ : ℚ) + 1 := Int.lt_floor_add_one _
  rw [div_lt_iff₀ hm] at hf
  rw [remainder_rat]
  linarith

end Coordinate

end FogNet
