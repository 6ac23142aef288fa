import FogNet.Proofs.Plane.Crossing
import Mathlib.Order.Interval.Set.Defs

/-!
# Rectangles that tile

Of the four sides of a rectangle only the upright ones are crossed, both at the same heights: those
from the lower side on and below the upper one. So the rectangle covers its left and its lower side
and not the other two (`Polygon.contains_rectangle`), and rectangles that share a side leave no
gap and do not overlap there (`Polygon.rectangle_tiles`).
-/

namespace FogNet.Polygon

variable {x y width height : ℚ}

/-- A level edge is not crossed. -/
theorem crosses_level (p : Point ℚ) (a b y : ℚ) : crosses p ⟨a, y⟩ ⟨b, y⟩ = false := by
  have hs : straddles p ⟨a, y⟩ ⟨b, y⟩ = false := Bool.xor_self _
  rw [crosses_eq, hs, Bool.false_and]

/-- An upright edge is crossed from its left, at the heights from its lower end on and below the
upper one. -/
theorem crosses_upright (hheight : 0 < height) (p : Point ℚ) (x : ℚ) :
    crosses p ⟨x, y⟩ ⟨x, y + height⟩ =
      (decide (p.y ∈ Set.Ico y (y + height)) && decide (p.x < x)) := by
  have hmeets : meets p ⟨x, y⟩ ⟨x, y + height⟩ = x := by
    unfold meets
    rw [sub_self, zero_mul, zero_div, zero_add]
  have hstraddles : straddles p ⟨x, y⟩ ⟨x, y + height⟩ = decide (p.y ∈ Set.Ico y (y + height)) := by
    rw [Bool.eq_iff_iff, straddles_eq_true_iff, decide_eq_true_iff]
    refine or_iff_left fun h => ?_
    have hhigh : p.y < y := h.2
    have hlow : y + height ≤ p.y := h.1
    linarith
  rw [crosses_eq, hmeets, hstraddles]

/-- Two adjoining ranges make up one, and have nothing in common. -/
theorem xor_mem_Ico {a b c : ℚ} (hab : a ≤ b) (hbc : b ≤ c) (q : ℚ) :
    (decide (q ∈ Set.Ico a b) ^^ decide (q ∈ Set.Ico b c)) = decide (q ∈ Set.Ico a c) := by
  simp only [Set.mem_Ico]
  rcases lt_or_ge q b with hq | hq
  · simp [hq, hq.not_ge, hq.trans_le hbc]
  · simp [hq, hq.not_gt, hab.trans hq]

/-- A rectangle covers its inside, its left and its lower side. -/
theorem contains_rectangle (hwidth : 0 < width) (hheight : 0 < height) (p : Point ℚ) :
    (rectangle x y width height).contains p =
      (decide (p.x ∈ Set.Ico x (x + width)) && decide (p.y ∈ Set.Ico y (y + height))) := by
  have hloop : (rectangle x y width height).contains p =
      (crosses p ⟨x, y + height⟩ ⟨x, y⟩ ^^ (crosses p ⟨x, y⟩ ⟨x + width, y⟩ ^^
        (crosses p ⟨x + width, y⟩ ⟨x + width, y + height⟩ ^^
          (crosses p ⟨x + width, y + height⟩ ⟨x, y + height⟩ ^^ false)))) := rfl
  have hleft : crosses p ⟨x, y + height⟩ ⟨x, y⟩ =
      (decide (p.y ∈ Set.Ico y (y + height)) && decide (p.x < x)) := by
    rw [crosses_comm, crosses_upright hheight]
  have hright : crosses p ⟨x + width, y⟩ ⟨x + width, y + height⟩ =
      (decide (p.y ∈ Set.Ico y (y + height)) && decide (p.x < x + width)) :=
    crosses_upright hheight p (x + width)
  have hrange : (decide (p.x < x) ^^ decide (p.x < x + width)) =
      decide (p.x ∈ Set.Ico x (x + width)) := by
    simp only [Set.mem_Ico]
    rcases lt_or_ge p.x x with hx | hx
    · simp [hx, hx.not_ge, hx.trans (lt_add_of_pos_right x hwidth)]
    · simp [hx, hx.not_gt]
  rw [hloop, hleft, hright, crosses_level, crosses_level, Bool.false_xor,
    Bool.xor_false, Bool.xor_false, ← Bool.and_xor_distrib_left, hrange, Bool.and_comm]

/-- A rectangle covers the half-open range of its sides, and of two rectangles side by side or one
upon the other exactly one covers each point in the half-open range of both. -/
theorem rectangle_tiles (hwidth : 0 < width) (hheight : 0 < height) :
    (∀ p, (rectangle x y width height).contains p = true ↔
      p.x ∈ Set.Ico x (x + width) ∧ p.y ∈ Set.Ico y (y + height)) ∧
    (∀ further, 0 < further → ∀ p,
      ((rectangle x y width height).contains p ^^
        (rectangle (x + width) y further height).contains p) = true ↔
      p.x ∈ Set.Ico x (x + (width + further)) ∧ p.y ∈ Set.Ico y (y + height)) ∧
    (∀ further, 0 < further → ∀ p,
      ((rectangle x y width height).contains p ^^
        (rectangle x (y + height) width further).contains p) = true ↔
      p.x ∈ Set.Ico x (x + width) ∧ p.y ∈ Set.Ico y (y + (height + further))) := by
  refine ⟨fun p => ?_, fun further hfurther p => ?_, fun further hfurther p => ?_⟩
  · rw [contains_rectangle hwidth hheight, Bool.and_eq_true, decide_eq_true_eq, decide_eq_true_eq]
  · have hwider : x + width ≤ x + (width + further) := by linarith
    rw [contains_rectangle hwidth hheight, contains_rectangle hfurther hheight, add_assoc,
      ← Bool.and_xor_distrib_right, xor_mem_Ico (by linarith) hwider, Bool.and_eq_true,
      decide_eq_true_eq, decide_eq_true_eq]
  · have hhigher : y + height ≤ y + (height + further) := by linarith
    rw [contains_rectangle hwidth hheight, contains_rectangle hwidth hfurther, add_assoc,
      ← Bool.and_xor_distrib_left, xor_mem_Ico (by linarith) hhigher, Bool.and_eq_true,
      decide_eq_true_eq, decide_eq_true_eq]

/-- The corners that a rectangle shares with one beside it and with one upon it are covered by one of
both. -/
theorem rectangle_tiles_corner :
    (0 : ℚ) < 6 ∧ (0 : ℚ) < 10 ∧ (0 : ℚ) < 5 ∧
      ((rectangle (0 : ℚ) 0 6 10).contains ⟨6, 10⟩ = true ↔
        6 ∈ Set.Ico (0 : ℚ) (0 + 6) ∧ 10 ∈ Set.Ico (0 : ℚ) (0 + 10)) ∧
      ((rectangle (0 : ℚ) 0 6 10).contains ⟨6, 0⟩ ^^
        (rectangle (0 + 6 : ℚ) 0 5 10).contains ⟨6, 0⟩) = true ∧
      ((rectangle (0 : ℚ) 0 6 10).contains ⟨0, 10⟩ ^^
        (rectangle (0 : ℚ) (0 + 10) 6 5).contains ⟨0, 10⟩) = true := by
  have hwidth : (0 : ℚ) < 6 := by norm_num
  have hheight : (0 : ℚ) < 10 := by norm_num
  have hfurther : (0 : ℚ) < 5 := by norm_num
  obtain ⟨hsingle, hbeside, habove⟩ := @rectangle_tiles 0 0 6 10 hwidth hheight
  refine ⟨hwidth, hheight, hfurther, hsingle ⟨6, 10⟩, (hbeside 5 hfurther ⟨6, 0⟩).2 ?_,
    (habove 5 hfurther ⟨0, 10⟩).2 ?_⟩
  · simp only [Set.mem_Ico]
    norm_num
  · simp only [Set.mem_Ico]
    norm_num

end FogNet.Polygon
