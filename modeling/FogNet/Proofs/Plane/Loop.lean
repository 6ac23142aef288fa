import FogNet.Plane.Polygon

/-!
# Walking a loop

The parity of the crossings along a path is an exclusive or over its edges. It splits where the path
passes a vertex (`Polygon.oddCrossings_through`), a loop may be walked from any of its vertices
(`Polygon.contains_eq`), and an odd number of crossings means that there is one
(`Polygon.exists_crosses_of_contains`). Nothing of this depends on the arithmetic of coordinates.
-/

namespace FogNet.Polygon

variable {α : Type} [Coordinate α] {P : Polygon α} {l m : List (Point α)} {v : Point α}

theorem oddCrossings_append (p a : Point α) (l m : List (Point α)) :
    oddCrossings p a (l ++ m) = (oddCrossings p a l ^^ oddCrossings p (l.getLastD a) m) := by
  induction l generalizing a with
  | nil => exact (Bool.false_xor _).symm
  | cons b rest ih =>
    show (crosses p a b ^^ oddCrossings p b (rest ++ m)) =
      ((crosses p a b ^^ oddCrossings p b rest) ^^ _)
    rw [ih, Bool.xor_assoc, List.getLastD_cons]

/-- A path through a vertex is the path to it and the path from it. -/
theorem oddCrossings_through (p a v : Point α) (l m : List (Point α)) :
    oddCrossings p a (l ++ v :: m) = (oddCrossings p a (l ++ [v]) ^^ oddCrossings p v m) := by
  rw [List.append_cons, oddCrossings_append, List.getLastD_concat]

/-- A single edge at the end of a path. -/
theorem oddCrossings_concat (p a v : Point α) (l : List (Point α)) :
    oddCrossings p a (l ++ [v]) = (oddCrossings p a l ^^ crosses p (l.getLastD a) v) := by
  rw [oddCrossings_append]
  exact congrArg _ (Bool.xor_false _)

/-- A loop may be walked from any of its vertices. -/
theorem contains_eq (h : P.vertices = l ++ v :: m) (p : Point α) :
    P.contains p = oddCrossings p v (m ++ (l ++ [v])) := by
  have hlast : P.vertices.getLast P.vertices_ne_nil = m.getLastD v := by
    simp only [h]
    rw [List.getLast_append_of_ne_nil _ (List.cons_ne_nil v m), List.getLast_eq_getLastD]
  unfold contains
  rw [hlast, h, oddCrossings_through, oddCrossings_append p v m, Bool.xor_comm]

/-- A path that is crossed an odd number of times has an edge that is crossed. -/
theorem exists_crosses_of_oddCrossings {p a : Point α} (h : oddCrossings p a l = true) :
    ∃ u ∈ a :: l, ∃ v ∈ l, crosses p u v = true := by
  induction l generalizing a with
  | nil => cases h
  | cons b rest ih =>
    cases hc : crosses p a b with
    | true => exact ⟨a, List.mem_cons_self, b, List.mem_cons_self, hc⟩
    | false =>
      have hrest : oddCrossings p b rest = true := by
        have h : (crosses p a b ^^ oddCrossings p b rest) = true := h
        rwa [hc, Bool.false_xor] at h
      obtain ⟨u, hu, v, hv, huv⟩ := ih hrest
      exact ⟨u, List.mem_cons_of_mem a hu, v, List.mem_cons_of_mem b hv, huv⟩

/-- A polygon that covers a point has an edge that the ray from it crosses. -/
theorem exists_crosses_of_contains {p : Point α} (h : P.contains p = true) :
    ∃ u ∈ P.vertices, ∃ v ∈ P.vertices, crosses p u v = true := by
  obtain ⟨u, hu, v, hv, huv⟩ := exists_crosses_of_oddCrossings h
  rcases List.mem_cons.1 hu with rfl | hu
  · exact ⟨_, List.getLast_mem P.vertices_ne_nil, v, hv, huv⟩
  · exact ⟨u, hu, v, hv, huv⟩

end FogNet.Polygon
