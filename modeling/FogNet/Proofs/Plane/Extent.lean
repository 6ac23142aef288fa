import FogNet.Proofs.Plane.Crossing
import Mathlib.Order.Bounds.Basic
import Mathlib.Order.Interval.Set.Defs

/-!
# Polygons cover nothing outside the range of their vertices

A crossed edge reaches to the right of the point and to both sides of its height. To the left of all
vertices every edge that straddles the height is crossed, so the parity is that of changing sides
along the way (`Polygon.oddCrossings_of_left`), and a closed loop comes back to the side it started
on. A covered point therefore lies in the half-open range of the vertices, and in the bounding box
(`Polygon.within_of_contains`).
-/

namespace FogNet

/-! ## Extremes -/

theorem lesser_eq_min (a b : ℚ) : lesser a b = min a b := (min_def' a b).symm

theorem larger_eq_max (a b : ℚ) : larger a b = max a b := (max_def a b).symm

theorem Coordinate.isLeast_least {l : List ℚ} (hl : l ≠ []) :
    IsLeast {x | x ∈ l} (Coordinate.least l) := by
  obtain ⟨a, rest, rfl⟩ := List.exists_cons_of_ne_nil hl
  have hmin : (a :: rest).min? = some (Coordinate.least (a :: rest)) := by
    show _ = some ((a :: rest).foldl lesser a)
    rw [List.min?_cons', List.foldl_cons, show lesser = min from funext₂ lesser_eq_min, min_self]
  exact List.min?_eq_some_iff.1 hmin

theorem Coordinate.isGreatest_greatest {l : List ℚ} (hl : l ≠ []) :
    IsGreatest {x | x ∈ l} (Coordinate.greatest l) := by
  obtain ⟨a, rest, rfl⟩ := List.exists_cons_of_ne_nil hl
  have hmax : (a :: rest).max? = some (Coordinate.greatest (a :: rest)) := by
    show _ = some ((a :: rest).foldl larger a)
    rw [List.max?_cons', List.foldl_cons, show larger = max from funext₂ larger_eq_max, max_self]
  exact List.max?_eq_some_iff.1 hmax

namespace Rectangle

/-- Making an extent positive never makes it smaller. -/
theorem le_positiveExtent (extent : ℚ) : extent ≤ positiveExtent extent := by
  unfold positiveExtent
  split_ifs with h
  · exact le_rfl
  · exact (not_lt.1 h).trans zero_le_one

/-- The rectangle over two ranges holds every point in both of them. -/
theorem contains_sized {p : Point ℚ} {left right bottom top : ℚ} (hx : p.x ∈ Set.Ico left right)
    (hy : p.y ∈ Set.Ico bottom top) :
    (sized left bottom (right - left) (top - bottom)).contains p = true := by
  have hright : p.x ≤ left + positiveExtent (right - left) := by
    linarith [hx.2, le_positiveExtent (right - left)]
  have htop : p.y ≤ bottom + positiveExtent (top - bottom) := by
    linarith [hy.2, le_positiveExtent (top - bottom)]
  simp only [contains, Bool.and_eq_true, decide_eq_true_eq]
  exact ⟨⟨⟨hx.1, hright⟩, hy.1⟩, htop⟩

end Rectangle

namespace Polygon

/-- The range that the vertices of a polygon take up. -/
structure Spans (P : Polygon ℚ) (left right bottom top : ℚ) : Prop where
  /-- The smallest first coordinate. -/
  left : IsLeast {x | x ∈ P.vertices.map (·.x)} left
  /-- The greatest first coordinate. -/
  right : IsGreatest {x | x ∈ P.vertices.map (·.x)} right
  /-- The smallest second coordinate. -/
  bottom : IsLeast {y | y ∈ P.vertices.map (·.y)} bottom
  /-- The greatest second coordinate. -/
  top : IsGreatest {y | y ∈ P.vertices.map (·.y)} top

variable {P : Polygon ℚ} {p u v : Point ℚ} {left right bottom top : ℚ}

/-- The bounding box is made of the range of the vertices. -/
theorem exists_spans (P : Polygon ℚ) :
    ∃ left right bottom top, P.Spans left right bottom top ∧
      P.boundingBox = .sized left bottom (right - left) (top - bottom) := by
  have hne : ∀ f : Point ℚ → ℚ, P.vertices.map f ≠ [] := fun f =>
    mt List.map_eq_nil_iff.1 P.vertices_ne_nil
  exact ⟨_, _, _, _, ⟨Coordinate.isLeast_least (hne _), Coordinate.isGreatest_greatest (hne _),
    Coordinate.isLeast_least (hne _), Coordinate.isGreatest_greatest (hne _)⟩, rfl⟩

namespace Spans

theorem le_x (hs : P.Spans left right bottom top) (hv : v ∈ P.vertices) : left ≤ v.x :=
  hs.left.2 (List.mem_map_of_mem hv)

theorem x_le (hs : P.Spans left right bottom top) (hv : v ∈ P.vertices) : v.x ≤ right :=
  hs.right.2 (List.mem_map_of_mem hv)

theorem le_y (hs : P.Spans left right bottom top) (hv : v ∈ P.vertices) : bottom ≤ v.y :=
  hs.bottom.2 (List.mem_map_of_mem hv)

theorem y_le (hs : P.Spans left right bottom top) (hv : v ∈ P.vertices) : v.y ≤ top :=
  hs.top.2 (List.mem_map_of_mem hv)

/-- A point to the right of all edges is not covered. -/
theorem lt_right (hs : P.Spans left right bottom top) (h : P.contains p = true) : p.x < right := by
  obtain ⟨u, hu, v, hv, hc⟩ := exists_crosses_of_contains h
  rw [crosses_eq, Bool.and_eq_true, decide_eq_true_eq] at hc
  exact hc.2.trans_le (meets_le hc.1 (hs.x_le hu) (hs.x_le hv))

/-- A point above or below all edges is not covered. -/
theorem mem_heights (hs : P.Spans left right bottom top) (h : P.contains p = true) :
    p.y ∈ Set.Ico bottom top := by
  obtain ⟨u, hu, v, hv, hc⟩ := exists_crosses_of_contains h
  rw [crosses_eq, Bool.and_eq_true] at hc
  rcases straddles_eq_true_iff.1 hc.1 with ⟨hlow, hhigh⟩ | ⟨hlow, hhigh⟩
  · exact ⟨(hs.le_y hu).trans hlow, hhigh.trans_le (hs.y_le hv)⟩
  · exact ⟨(hs.le_y hv).trans hlow, hhigh.trans_le (hs.y_le hu)⟩

end Spans

/-- To the left of a path, the parity of its crossings says whether it ends on the side of the
height on which it starts. -/
theorem oddCrossings_of_left {l : List (Point ℚ)} (hl : ∀ v ∈ u :: l, p.x < v.x) :
    oddCrossings p u l = (above p u ^^ above p (l.getLastD u)) := by
  induction l generalizing u with
  | nil => exact (Bool.xor_self _).symm
  | cons v rest ih =>
    have hu : p.x < u.x := hl u List.mem_cons_self
    have hv : p.x < v.x := hl v (List.mem_cons_of_mem u List.mem_cons_self)
    have hedge : crosses p u v = (above p u ^^ above p v) := by
      rw [crosses_eq]
      cases hs : straddles p u v with
      | true =>
        rw [decide_eq_true (lt_meets hs hu hv)]
        exact hs.symm
      | false => exact hs.symm
    have hrest := ih fun w hw => hl w (List.mem_cons_of_mem u hw)
    show (crosses p u v ^^ oddCrossings p v rest) = _
    rw [hedge, hrest, List.getLastD_cons]
    cases above p v <;> simp

/-- A point to the left of all vertices is not covered. -/
theorem contains_of_left (hl : ∀ v ∈ P.vertices, p.x < v.x) : P.contains p = false := by
  have hlast := List.getLast_mem P.vertices_ne_nil
  unfold contains
  rw [oddCrossings_of_left (List.forall_mem_cons.2 ⟨hl _ hlast, hl⟩), List.getLastD_eq_getLast?,
    List.getLast?_eq_some_getLast P.vertices_ne_nil, Option.getD_some, Bool.xor_self]

/-- A covered point lies in the half-open range of the vertices and in the bounding box. -/
theorem within_of_contains (P : Polygon ℚ) (p : Point ℚ) (h : P.contains p = true) :
    ∃ left right bottom top, P.Spans left right bottom top ∧ p.x ∈ Set.Ico left right ∧
      p.y ∈ Set.Ico bottom top ∧ P.boundingBox.contains p = true := by
  obtain ⟨left, right, bottom, top, hs, hbox⟩ := exists_spans P
  have hx : p.x ∈ Set.Ico left right := by
    refine ⟨not_lt.1 fun hlt => ?_, hs.lt_right h⟩
    rw [contains_of_left fun v hv => hlt.trans_le (hs.le_x hv)] at h
    cases h
  have hy := hs.mem_heights h
  refine ⟨left, right, bottom, top, hs, hx, hy, ?_⟩
  rw [hbox]
  exact Rectangle.contains_sized hx hy

/-- A point on the left side of an angular shape is covered, and so within its range. -/
theorem within_of_contains_lShape :
    lShape.contains ⟨0, 3⟩ = true ∧
      ∃ left right bottom top, lShape.Spans left right bottom top ∧ 0 ∈ Set.Ico left right ∧
        3 ∈ Set.Ico bottom top ∧ lShape.boundingBox.contains ⟨0, 3⟩ = true := by
  have hcovered : lShape.contains ⟨0, 3⟩ = true := by decide +kernel
  exact ⟨hcovered, within_of_contains lShape ⟨0, 3⟩ hcovered⟩

end Polygon

end FogNet
