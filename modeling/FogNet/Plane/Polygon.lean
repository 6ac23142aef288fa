import FogNet.Plane.Rectangle

/-!
# Coverage polygons

A polygon is a closed loop of at least three vertices, and it covers the points from which a ray to
the right crosses the loop an odd number of times. The crossing test takes one end of an edge's
height range and leaves the other, so edges that meet in a vertex are counted once. The loop is
walked with the previous vertex at hand, starting from the last one (`Polygon.contains`).
-/

namespace FogNet

/-- Why vertices make no polygon. -/
inductive ShapeError where
  /-- Fewer than three vertices. -/
  | tooFewVertices (count : Nat)
  /-- As many first coordinates as second ones are needed. -/
  | lengthsDiffer (xs ys : Nat)
deriving DecidableEq

/-- The wording of a shape error. -/
def ShapeError.message : ShapeError → String
  | tooFewVertices count => s!"polygon needs at least 3 vertices, got {count}"
  | lengthsDiffer xs ys => s!"coordinate arrays differ in length: {xs} x values, {ys} y values"

/-- A closed loop of vertices, each joined to the next and the last to the first. -/
structure Polygon (α : Type) where
  /-- The vertices in order. -/
  vertices : List (Point α)
  /-- A loop needs three vertices. -/
  three_le_length : 3 ≤ vertices.length

namespace Polygon

variable {α : Type}

/-- The polygon with the given vertices. -/
def ofVertices (vertices : List (Point α)) : Except ShapeError (Polygon α) :=
  if h : 3 ≤ vertices.length then .ok ⟨vertices, h⟩
  else .error (.tooFewVertices vertices.length)

/-- The polygon whose vertices have the given first and second coordinates. -/
def ofCoordinates (xs ys : List α) : Except ShapeError (Polygon α) :=
  if xs.length = ys.length then ofVertices (List.zipWith Point.mk xs ys)
  else .error (.lengthsDiffer xs.length ys.length)

theorem ofVertices_eq_ok_iff {vertices : List (Point α)} {p : Polygon α} :
    ofVertices vertices = .ok p ↔ p.vertices = vertices := by
  unfold ofVertices
  split
  · constructor
    · intro h; cases h; rfl
    · intro h; cases p; subst h; rfl
  · rename_i hlt
    constructor
    · intro h; cases h
    · intro h; exact absurd (h ▸ p.three_le_length) hlt

theorem eq_of_vertices {p q : Polygon α} (h : p.vertices = q.vertices) : p = q := by
  cases p
  cases q
  cases h
  rfl

/-- The number of vertices. -/
def size (p : Polygon α) : Nat := p.vertices.length

theorem vertices_ne_nil (p : Polygon α) : p.vertices ≠ [] := by
  intro h
  have := p.three_le_length
  simp [h] at this

/-- The name of the shape by its number of vertices. -/
def shapeName (p : Polygon α) : String :=
  match p.size with
  | 3 => "Triangle"
  | 4 => "Quadrilateral"
  | 5 => "Pentagon"
  | 6 => "Hexagon"
  | n => s!"{n}-gon"

variable [Coordinate α]

/-- A rectangle as a loop of its four corners. -/
def rectangle (x y width height : α) : Polygon α :=
  ⟨[⟨x, y⟩, ⟨x + width, y⟩, ⟨x + width, y + height⟩, ⟨x, y + height⟩], by simp⟩

/-- Whether the ray from a point to the right crosses the edge between two vertices. -/
def crosses (p previous vertex : Point α) : Bool :=
  (decide (p.y < vertex.y) != decide (p.y < previous.y)) &&
    decide (p.x < (previous.x - vertex.x) * (p.y - vertex.y) / (previous.y - vertex.y) + vertex.x)

/-- Whether the ray from a point crosses an odd number of the edges of a path. -/
def oddCrossings (p : Point α) : Point α → List (Point α) → Bool
  | _, [] => false
  | previous, vertex :: rest => crosses p previous vertex ^^ oddCrossings p vertex rest

/-- Whether the polygon covers a point. -/
def contains (polygon : Polygon α) (p : Point α) : Bool :=
  oddCrossings p (polygon.vertices.getLast polygon.vertices_ne_nil) polygon.vertices

/-- The smallest rectangle around all vertices, a flat side widened to one. -/
def boundingBox (polygon : Polygon α) : Rectangle α :=
  let xs := polygon.vertices.map (·.x)
  let ys := polygon.vertices.map (·.y)
  let left := Coordinate.least xs
  let bottom := Coordinate.least ys
  .sized left bottom (Coordinate.greatest xs - left) (Coordinate.greatest ys - bottom)

end Polygon

end FogNet
