import FogNet.Plane.Rational
import FogNet.Proofs.Plane.Loop
import Mathlib.Tactic.FieldSimp
import Mathlib.Tactic.Linarith
import Mathlib.Tactic.Ring

/-!
# Exact crossings

Over the rational numbers a ray crosses an edge if the ends of the edge lie on different sides of
its height (`Polygon.straddles`) and the edge meets that height to the right of where it starts
(`Polygon.meets`). Where the edge meets the height does not depend on the direction in which it is
walked, and lies between its ends. So a cut through a polygon, which the two pieces walk in opposite
directions, cancels out: whatever the vertices are, a point is covered by the polygon if and only if
one piece covers it and the other does not (`Polygon.contains_cut`).
-/

namespace FogNet.Polygon

/-! ## A single edge -/

/-- Whether a vertex lies above the height of a point. -/
def above (p v : Point ℚ) : Bool := decide (p.y < v.y)

/-- Whether the ends of an edge lie on different sides of the height of a point. -/
def straddles (p u v : Point ℚ) : Bool := above p u ^^ above p v

/-- Where the line through two vertices meets the height of a point. -/
def meets (p u v : Point ℚ) : ℚ := (u.x - v.x) * (p.y - v.y) / (u.y - v.y) + v.x

variable {p u v : Point ℚ}

theorem crosses_eq (p u v : Point ℚ) :
    crosses p u v = (straddles p u v && decide (p.x < meets p u v)) := by
  unfold straddles
  rw [Bool.xor_comm]
  rfl

theorem straddles_eq_true_iff :
    straddles p u v = true ↔ u.y ≤ p.y ∧ p.y < v.y ∨ v.y ≤ p.y ∧ p.y < u.y := by
  unfold straddles above
  rw [← not_lt, ← not_lt]
  by_cases hu : p.y < u.y <;> by_cases hv : p.y < v.y <;> simp [hu, hv]

theorem straddles_comm (p u v : Point ℚ) : straddles p u v = straddles p v u := Bool.xor_comm _ _

theorem ne_of_straddles (h : straddles p u v = true) : u.y ≠ v.y := by
  intro he
  rcases straddles_eq_true_iff.1 h with h | h <;> linarith

/-- An edge meets a height in the same place in both directions. -/
theorem meets_comm (h : u.y ≠ v.y) : meets p u v = meets p v u := by
  have huv : u.y - v.y ≠ 0 := sub_ne_zero.2 h
  have hvu : v.y - u.y ≠ 0 := sub_ne_zero.2 h.symm
  unfold meets
  field_simp
  ring

/-- An edge is crossed whichever way it is walked. -/
theorem crosses_comm (p u v : Point ℚ) : crosses p u v = crosses p v u := by
  rw [crosses_eq, crosses_eq, straddles_comm p v u]
  cases h : straddles p u v with
  | true => rw [meets_comm (ne_of_straddles h)]
  | false => rfl

/-- An edge that reaches a height meets it at a place between its ends. -/
theorem exists_meets_eq (h : straddles p u v = true) :
    ∃ t, 0 ≤ t ∧ t ≤ 1 ∧ meets p u v = t * u.x + (1 - t) * v.x := by
  refine ⟨(p.y - v.y) / (u.y - v.y), ?_, ?_, ?_⟩
  · rcases straddles_eq_true_iff.1 h with ⟨hu, hv⟩ | ⟨hv, hu⟩
    · exact div_nonneg_of_nonpos (by linarith) (by linarith)
    · exact div_nonneg (by linarith) (by linarith)
  · rcases straddles_eq_true_iff.1 h with ⟨hu, hv⟩ | ⟨hv, hu⟩
    · exact div_le_one_of_ge (by linarith) (by linarith)
    · exact div_le_one_of_le₀ (by linarith) (by linarith)
  · unfold meets
    ring

theorem lt_meets (h : straddles p u v = true) {c : ℚ} (hu : c < u.x) (hv : c < v.x) :
    c < meets p u v := by
  obtain ⟨t, ht0, ht1, hm⟩ := exists_meets_eq h
  rw [hm]
  rcases ht0.eq_or_lt with rfl | ht
  · linarith
  · have hleft : t * c < t * u.x := mul_lt_mul_of_pos_left hu ht
    have hright : (1 - t) * c ≤ (1 - t) * v.x := mul_le_mul_of_nonneg_left hv.le (by linarith)
    linarith

theorem meets_le (h : straddles p u v = true) {c : ℚ} (hu : u.x ≤ c) (hv : v.x ≤ c) :
    meets p u v ≤ c := by
  obtain ⟨t, ht0, ht1, hm⟩ := exists_meets_eq h
  have hleft : t * u.x ≤ t * c := mul_le_mul_of_nonneg_left hu ht0
  have hright : (1 - t) * v.x ≤ (1 - t) * c := mul_le_mul_of_nonneg_left hv (by linarith)
  rw [hm]
  linarith

/-! ## Cuts -/

/-- Whether two vertices, given in order, are joined by an edge. -/
def Adjacent {α : Type} (P : Polygon α) (i j : ℕ) : Prop := j = i + 1 ∨ i = 0 ∧ j + 1 = P.size

/-- The pieces walk the cut in opposite directions, so it is crossed by both or by neither. -/
theorem contains_eq_xor {P A B : Polygon ℚ} {u v : Point ℚ} {l m n : List (Point ℚ)}
    (hP : P.vertices = l ++ u :: (m ++ v :: n)) (hA : A.vertices = u :: (m ++ [v]))
    (hB : B.vertices = v :: (n ++ (l ++ [u]))) (p : Point ℚ) :
    P.contains p = (A.contains p ^^ B.contains p) := by
  -- each loop is walked from a vertex of the cut: the polygon and one piece from `u`, the other from `v`
  have hwhole : P.contains p = (oddCrossings p u (m ++ [v]) ^^ oddCrossings p v (n ++ (l ++ [u]))) := by
    rw [contains_eq hP, List.append_assoc, List.cons_append, oddCrossings_through]
  have hfirst : A.contains p = (oddCrossings p u (m ++ [v]) ^^ crosses p v u) := by
    rw [contains_eq (l := []) hA, List.nil_append, oddCrossings_concat, List.getLastD_concat]
  have hsecond : B.contains p = (oddCrossings p v (n ++ (l ++ [u])) ^^ crosses p u v) := by
    rw [contains_eq (l := []) hB, List.nil_append, oddCrossings_concat, ← List.append_assoc n,
      List.getLastD_concat]
  rw [hwhole, hfirst, hsecond, crosses_comm p u v]
  cases crosses p v u <;> simp

/-- Two places in a list split it into what is before, between and behind them. -/
theorem exists_eq_append {β : Type} {l : List β} {i j : ℕ} (hij : i < j) (hj : j < l.length) :
    ∃ a u b v c, l = a ++ u :: (b ++ v :: c) ∧ a.length = i ∧ b.length = j - (i + 1) := by
  refine ⟨l.take i, l[i], (l.drop (i + 1)).take (j - (i + 1)), l[j], l.drop (j + 1), ?_, ?_, ?_⟩
  · have hrest : l.drop (i + 1) = (l.drop (i + 1)).take (j - (i + 1)) ++ l[j] :: l.drop (j + 1) := by
      rw [← List.drop_eq_getElem_cons hj]
      conv_lhs => rw [← List.take_append_drop (j - (i + 1)) (l.drop (i + 1))]
      rw [List.drop_drop, Nat.add_sub_cancel' hij]
    rw [← hrest, ← List.drop_eq_getElem_cons, List.take_append_drop]
  · rw [List.length_take]
    omega
  · rw [List.length_take, List.length_drop]
    omega

/-- The slice from the first of two places to the second. -/
theorem drop_take_of_append {β : Type} {l m n : List β} {u v : β} {i j : ℕ} (hl : l.length = i)
    (hm : l.length + 1 + m.length = j) :
    ((l ++ u :: (m ++ v :: n)).take (j + 1)).drop i = u :: (m ++ [v]) := by
  have hlength : (l ++ u :: (m ++ [v])).length = j + 1 := by
    simp only [List.length_append, List.length_cons, List.length_nil]
    omega
  have hsplit : l ++ u :: (m ++ v :: n) = (l ++ u :: (m ++ [v])) ++ n := by simp
  rw [hsplit, List.take_left' hlength, List.drop_left' hl]

/-- The slice from the second of two places on, and around to the first. -/
theorem drop_append_take_of_append {β : Type} {l m n : List β} {u v : β} {i j : ℕ}
    (hl : l.length = i) (hm : l.length + 1 + m.length = j) :
    (l ++ u :: (m ++ v :: n)).drop j ++ (l ++ u :: (m ++ v :: n)).take (i + 1) =
      v :: (n ++ (l ++ [u])) := by
  have hdrop : (l ++ u :: (m ++ v :: n)).drop j = v :: n := by
    have hlength : (l ++ u :: m).length = j := by
      simp only [List.length_append, List.length_cons]
      omega
    have hsplit : l ++ u :: (m ++ v :: n) = (l ++ u :: m) ++ v :: n := by simp
    rw [hsplit, List.drop_left' hlength]
  have htake : (l ++ u :: (m ++ v :: n)).take (i + 1) = l ++ [u] := by
    have hlength : (l ++ [u]).length = i + 1 := by rw [List.length_append, hl]; rfl
    rw [List.append_cons, List.take_left' hlength]
  rw [hdrop, htake, List.cons_append]

/-- Cutting a polygon between two vertices that are not joined by an edge gives two polygons, and
the polygon covers a point if and only if exactly one of them does. -/
theorem contains_cut (P : Polygon ℚ) {i j : ℕ} (hij : i < j) (hj : j < P.size)
    (hcut : ¬ P.Adjacent i j) :
    ∃ A B, ofVertices ((P.vertices.take (j + 1)).drop i) = .ok A ∧
      ofVertices (P.vertices.drop j ++ P.vertices.take (i + 1)) = .ok B ∧
      ∀ p, P.contains p = (A.contains p ^^ B.contains p) := by
  obtain ⟨l, u, m, v, n, hP, hl, hm⟩ := exists_eq_append hij hj
  have hsize : P.size = l.length + 1 + m.length + 1 + n.length := by
    unfold size
    rw [hP]
    simp only [List.length_append, List.length_cons]
    omega
  have hplace : l.length + 1 + m.length = j := by omega
  -- each piece has a third vertex, since the two are not joined by an edge
  have hcut : j ≠ i + 1 ∧ ¬ (i = 0 ∧ j + 1 = P.size) := not_or.1 hcut
  have hA : 3 ≤ (u :: (m ++ [v])).length := by
    simp only [List.length_append, List.length_cons, List.length_nil]
    omega
  have hB : 3 ≤ (v :: (n ++ (l ++ [u]))).length := by
    simp only [List.length_append, List.length_cons, List.length_nil]
    omega
  refine ⟨⟨_, hA⟩, ⟨_, hB⟩, ?_, ?_, contains_eq_xor hP rfl rfl⟩
  · rw [hP, drop_take_of_append hl hplace, ofVertices_eq_ok_iff]
  · rw [hP, drop_append_take_of_append hl hplace, ofVertices_eq_ok_iff]

/-- An angular shape with its notch at the upper right. -/
def lShape : Polygon ℚ := ⟨[⟨0, 0⟩, ⟨4, 0⟩, ⟨4, 2⟩, ⟨2, 2⟩, ⟨2, 4⟩, ⟨0, 4⟩], by decide⟩

/-- The shape can be cut from its outer to its inner corner. -/
theorem contains_cut_lShape :
    0 < 3 ∧ 3 < lShape.size ∧ ¬ lShape.Adjacent 0 3 ∧
      ∃ A B, ofVertices ((lShape.vertices.take 4).drop 0) = .ok A ∧
        ofVertices (lShape.vertices.drop 3 ++ lShape.vertices.take 1) = .ok B ∧
        ∀ p, lShape.contains p = (A.contains p ^^ B.contains p) := by
  have hcut : ¬ lShape.Adjacent 0 3 := by
    unfold Adjacent
    decide
  exact ⟨by decide, by decide, hcut, contains_cut lShape (by decide) (by decide) hcut⟩

-- A point on the cut is covered.
example : lShape.contains ⟨1, 1⟩ = true := by decide +kernel

end FogNet.Polygon
