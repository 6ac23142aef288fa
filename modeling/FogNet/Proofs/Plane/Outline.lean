import FogNet.Proofs.Plane.Loop
import Mathlib.Data.List.Cycle
import Mathlib.Data.List.Destutter

/-!
# Outlines

A ray never crosses the edge from a vertex to itself, and a loop may be walked from any of its
vertices. What a polygon covers is therefore settled by its outline (`Polygon.outline`): the cyclic
sequence of its vertices, with those left out that repeat the one before them. Two polygons of one
outline cover the same points (`Polygon.contains_eq_of_outline_eq`), and neither the vertex that the
list starts with nor the repetition of a vertex makes a difference to the outline
(`Polygon.contains_rotate_repeat`). Nothing of this depends on the arithmetic of coordinates.
-/

namespace FogNet.Polygon

variable {α : Type}

/-! ## Rotated lists -/

/-- Rotating a list leaves it as it is, or puts two pieces of it into the other order. -/
theorem eq_or_exists_of_isRotated {β : Type} {l m : List β} (h : l ~r m) :
    l = m ∨ ∃ v a w b, l = v :: (a ++ w :: b) ∧ m = w :: (b ++ v :: a) := by
  obtain ⟨n, hn, rfl⟩ := List.isRotated_iff_mod.1 h
  have hl := (List.take_append_drop n l).symm
  rw [List.rotate_eq_drop_append_take hn]
  cases hfront : l.take n with
  | nil =>
    rw [hfront, List.nil_append] at hl
    rw [List.append_nil]
    exact .inl hl
  | cons v a =>
    cases hback : l.drop n with
    | nil =>
      rw [hfront, hback, List.append_nil] at hl
      exact .inl hl
    | cons w b =>
      rw [hfront, hback] at hl
      exact .inr ⟨v, a, w, b, hl, rfl⟩

/-! ## Crossings of a closed loop -/

section Crossings

variable [Coordinate α]

theorem crosses_self (p v : Point α) : crosses p v v = false := by
  unfold crosses
  rw [bne_self_eq_false, Bool.false_and]

/-- Whether the ray from a point crosses an odd number of the edges of the loop through some
vertices, however few they are. -/
def oddAround (p : Point α) : List (Point α) → Bool
  | [] => false
  | v :: rest => oddCrossings p v (rest ++ [v])

theorem contains_eq_oddAround (P : Polygon α) (p : Point α) :
    P.contains p = oddAround p P.vertices := by
  obtain ⟨v, rest, hP⟩ := List.exists_cons_of_ne_nil P.vertices_ne_nil
  rw [contains_eq (l := []) hP, hP]
  rfl

/-- A loop may be walked from any of its vertices. -/
theorem oddAround_eq_of_isRotated {l m : List (Point α)} (h : l ~r m) (p : Point α) :
    oddAround p l = oddAround p m := by
  obtain rfl | ⟨v, a, w, b, rfl, rfl⟩ := eq_or_exists_of_isRotated h
  · rfl
  · show oddCrossings p v ((a ++ w :: b) ++ [v]) = oddCrossings p w ((b ++ v :: a) ++ [w])
    rw [List.append_assoc, List.append_assoc, List.cons_append, List.cons_append,
      oddCrossings_through p v w a, oddCrossings_through p w v b (a ++ [w]), Bool.xor_comm]

/-- A path that ends where it starts walks around a loop. -/
theorem oddCrossings_eq_oddAround {u : Point α} {l : List (Point α)} (hl : l.getLastD u = u)
    (p : Point α) : oddCrossings p u l = oddAround p l := by
  cases l with
  | nil => rfl
  | cons v rest =>
    rw [List.getLastD_cons] at hl
    show (crosses p u v ^^ oddCrossings p v rest) = oddCrossings p v (rest ++ [v])
    rw [oddCrossings_concat, hl, Bool.xor_comm]

end Crossings

/-! ## Repetitions -/

variable [DecidableEq α] {u v : Point α} {l m : List (Point α)}

/-- The vertices of a path after its start, with those left out that repeat the one before them. -/
def distinctAfter (u : Point α) (l : List (Point α)) : List (Point α) :=
  (l.destutter' (· ≠ ·) u).tail

theorem distinctAfter_cons_self (u : Point α) (l : List (Point α)) :
    distinctAfter u (u :: l) = distinctAfter u l := by
  unfold distinctAfter
  rw [List.destutter'_cons_neg l (not_not.2 rfl)]

theorem destutter'_eq_cons (u : Point α) (l : List (Point α)) :
    l.destutter' (· ≠ ·) u = u :: distinctAfter u l := by
  unfold distinctAfter
  induction l generalizing u with
  | nil => rfl
  | cons v rest ih =>
    by_cases h : u = v
    · subst h
      rw [List.destutter'_cons_neg rest (not_not.2 rfl)]
      exact ih u
    · rw [List.destutter'_cons_pos rest h, List.tail_cons]

theorem distinctAfter_cons_of_ne (h : u ≠ v) (l : List (Point α)) :
    distinctAfter u (v :: l) = v :: distinctAfter v l := by
  unfold distinctAfter
  rw [List.destutter'_cons_pos l h, List.tail_cons]
  exact destutter'_eq_cons v l

theorem distinctAfter_replicate_append (k : ℕ) (v : Point α) (l : List (Point α)) :
    distinctAfter v (List.replicate k v ++ l) = distinctAfter v l := by
  induction k with
  | zero => rfl
  | succ k ih => rw [List.replicate_succ, List.cons_append, distinctAfter_cons_self, ih]

/-- Leaving repetitions out does not change where a path ends. -/
theorem getLastD_distinctAfter (u : Point α) (l : List (Point α)) :
    (distinctAfter u l).getLastD u = l.getLastD u := by
  induction l generalizing u with
  | nil => rfl
  | cons v rest ih =>
    rw [List.getLastD_cons]
    by_cases h : u = v
    · subst h
      rw [distinctAfter_cons_self, ih]
    · rw [distinctAfter_cons_of_ne h, List.getLastD_cons, ih]

theorem distinctAfter_append (u : Point α) (l m : List (Point α)) :
    distinctAfter u (l ++ m) = distinctAfter u l ++ distinctAfter (l.getLastD u) m := by
  induction l generalizing u with
  | nil => rfl
  | cons v rest ih =>
    rw [List.cons_append, List.getLastD_cons]
    by_cases h : u = v
    · subst h
      rw [distinctAfter_cons_self, distinctAfter_cons_self, ih]
    · rw [distinctAfter_cons_of_ne h, distinctAfter_cons_of_ne h, ih, List.cons_append]

/-- A path through a vertex is the path to it and the path from it. -/
theorem distinctAfter_through (u v : Point α) (l m : List (Point α)) :
    distinctAfter u (l ++ v :: m) = distinctAfter u (l ++ [v]) ++ distinctAfter v m := by
  rw [List.append_cons, distinctAfter_append u (l ++ [v]), List.getLastD_concat]

/-- Repetitions are not crossed. -/
theorem oddCrossings_distinctAfter [Coordinate α] (p u : Point α) (l : List (Point α)) :
    oddCrossings p u (distinctAfter u l) = oddCrossings p u l := by
  induction l generalizing u with
  | nil => rfl
  | cons v rest ih =>
    show _ = (crosses p u v ^^ oddCrossings p v rest)
    by_cases h : u = v
    · subst h
      rw [distinctAfter_cons_self, ih, crosses_self, Bool.false_xor]
    · rw [distinctAfter_cons_of_ne h, ← ih v]
      rfl

/-! ## The outline -/

/-- The vertices of a loop, with those left out that repeat the one before them; the last one
stands before the first. -/
def distinctAround : List (Point α) → List (Point α)
  | [] => []
  | v :: rest => distinctAfter v (rest ++ [v])

theorem oddAround_distinctAround [Coordinate α] (p : Point α) (l : List (Point α)) :
    oddAround p (distinctAround l) = oddAround p l := by
  cases l with
  | nil => rfl
  | cons v rest =>
    have hend : (distinctAfter v (rest ++ [v])).getLastD v = v := by
      rw [getLastD_distinctAfter, List.getLastD_concat]
    show oddAround p (distinctAfter v (rest ++ [v])) = oddCrossings p v (rest ++ [v])
    rw [← oddCrossings_eq_oddAround hend, oddCrossings_distinctAfter]

theorem isRotated_distinctAround (h : l ~r m) : distinctAround l ~r distinctAround m := by
  obtain rfl | ⟨v, a, w, b, rfl, rfl⟩ := eq_or_exists_of_isRotated h
  · exact List.IsRotated.refl _
  · show distinctAfter v ((a ++ w :: b) ++ [v]) ~r distinctAfter w ((b ++ v :: a) ++ [w])
    rw [List.append_assoc, List.append_assoc, List.cons_append, List.cons_append,
      distinctAfter_through v w a, distinctAfter_through w v b (a ++ [w])]
    exact List.isRotated_append

/-- Repeating a vertex is not seen around the loop. -/
theorem distinctAround_replicate (k : ℕ) (v : Point α) (l m : List (Point α)) :
    distinctAround (l ++ (List.replicate (k + 1) v ++ m)) ~r distinctAround (l ++ v :: m) := by
  have hhead : distinctAround (List.replicate (k + 1) v ++ m ++ l) =
      distinctAround (v :: m ++ l) := by
    show distinctAfter v (List.replicate k v ++ m ++ l ++ [v]) = distinctAfter v (m ++ l ++ [v])
    rw [List.append_assoc, List.append_assoc, distinctAfter_replicate_append, ← List.append_assoc]
  have hrepeated : distinctAround (l ++ (List.replicate (k + 1) v ++ m)) ~r
      distinctAround (List.replicate (k + 1) v ++ m ++ l) :=
    isRotated_distinctAround List.isRotated_append
  rw [hhead] at hrepeated
  exact hrepeated.trans (isRotated_distinctAround List.isRotated_append)

/-- The cyclic sequence of the vertices of a polygon, with those left out that repeat the one
before them. -/
def outline (P : Polygon α) : Cycle (Point α) := (distinctAround P.vertices : List (Point α))

variable [Coordinate α] {P Q : Polygon α}

/-- What a polygon covers depends on nothing but its outline. -/
theorem contains_eq_of_outline_eq (h : Q.outline = P.outline) (p : Point α) :
    Q.contains p = P.contains p := by
  rw [contains_eq_oddAround, contains_eq_oddAround, ← oddAround_distinctAround p Q.vertices,
    ← oddAround_distinctAround p P.vertices]
  exact oddAround_eq_of_isRotated (Cycle.coe_eq_coe.1 h) p

/-- Vertices with the outline of a polygon make a polygon that covers the same points. -/
theorem exists_of_isRotated {vertices : List (Point α)}
    (hlength : P.vertices.length ≤ vertices.length)
    (h : distinctAround vertices ~r distinctAround P.vertices) :
    ∃ Q, ofVertices vertices = .ok Q ∧ Q.outline = P.outline ∧
      ∀ p, Q.contains p = P.contains p := by
  have houtline : outline ⟨vertices, P.three_le_length.trans hlength⟩ = P.outline :=
    Cycle.coe_eq_coe.2 h
  exact ⟨_, ofVertices_eq_ok_iff.2 rfl, houtline, contains_eq_of_outline_eq houtline⟩

/-- Neither rotating the list of vertices nor repeating a vertex after itself changes the outline of
a polygon, and polygons of one outline cover the same points. -/
theorem contains_rotate_repeat (P : Polygon α) :
    (∀ n, ∃ Q, ofVertices (P.vertices.rotate n) = .ok Q ∧ Q.outline = P.outline ∧
      ∀ p, Q.contains p = P.contains p) ∧
    (∀ l v m, P.vertices = l ++ v :: m → ∀ k, ∃ Q,
      ofVertices (l ++ (List.replicate (k + 1) v ++ m)) = .ok Q ∧ Q.outline = P.outline ∧
        ∀ p, Q.contains p = P.contains p) ∧
    ∀ Q : Polygon α, Q.outline = P.outline → ∀ p, Q.contains p = P.contains p := by
  refine ⟨fun n => ?_, fun l v m hP k => ?_, fun Q => contains_eq_of_outline_eq⟩
  · exact exists_of_isRotated (List.length_rotate _ _).ge
      (isRotated_distinctAround (List.IsRotated.forall _ _))
  · refine exists_of_isRotated ?_ (hP ▸ distinctAround_replicate k v l m)
    rw [hP]
    simp only [List.length_append, List.length_cons, List.length_replicate]
    omega

/-- A triangle with a vertex at infinity and one whose height is not a number. -/
def unbounded : Polygon Float := ⟨[⟨0, 0⟩, ⟨1 / 0, 4⟩, ⟨2, 0 / 0⟩], by decide⟩

/-- The triangle walked from its last vertex, and with two vertices repeated. -/
def restarted : Polygon Float :=
  ⟨[⟨2, 0 / 0⟩, ⟨2, 0 / 0⟩, ⟨0, 0⟩, ⟨1 / 0, 4⟩, ⟨1 / 0, 4⟩, ⟨1 / 0, 4⟩], by decide⟩

/-- Neither the vertex at infinity nor the one without a height stands in the way. -/
theorem contains_restarted :
    unbounded.vertices = [⟨0, 0⟩] ++ ⟨1 / 0, 4⟩ :: [⟨2, 0 / 0⟩] ∧
      (∃ Q, ofVertices ([⟨0, 0⟩] ++ (List.replicate 3 ⟨1 / 0, 4⟩ ++ [⟨2, 0 / 0⟩])) = .ok Q ∧
        Q.outline = unbounded.outline ∧ ∀ p, Q.contains p = unbounded.contains p) ∧
      restarted.outline = unbounded.outline ∧
      ∀ p, restarted.contains p = unbounded.contains p := by
  have houtline : restarted.outline = unbounded.outline := by decide
  obtain ⟨-, hrepeat, hsame⟩ := contains_rotate_repeat unbounded
  exact ⟨rfl, hrepeat [⟨0, 0⟩] ⟨1 / 0, 4⟩ [⟨2, 0 / 0⟩] rfl 2, houtline, hsame restarted houtline⟩

end FogNet.Polygon
