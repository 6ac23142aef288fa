import FogNet.Plane.Point

/-!
# Axis-parallel rectangles

A rectangle is given by its lower-left corner and its extents. `Rectangle.sized` is the constructor
for extents of unknown sign: each that is not positive becomes one.
-/

namespace FogNet

/-- A rectangle with sides along the axes. -/
structure Rectangle (α : Type) where
  /-- The first coordinate of the lower-left corner. -/
  x : α
  /-- The second coordinate of the lower-left corner. -/
  y : α
  /-- The extent along the first axis. -/
  width : α
  /-- The extent along the second axis. -/
  height : α

namespace Rectangle

variable {α : Type} [Coordinate α]

/-- An extent, with one in place of anything that is not positive. -/
def positiveExtent (extent : α) : α := if 0 < extent then extent else 1

/-- The rectangle with the given corner, each extent made positive on its own. -/
def sized (x y width height : α) : Rectangle α :=
  ⟨x, y, positiveExtent width, positiveExtent height⟩

/-- Whether a point lies in the rectangle; all four sides belong to it. -/
def contains (r : Rectangle α) (p : Point α) : Bool :=
  decide (r.x ≤ p.x) && decide (p.x ≤ r.x + r.width) &&
    decide (r.y ≤ p.y) && decide (p.y ≤ r.y + r.height)

/-- The middle of the rectangle. -/
def center (r : Rectangle α) : Point α :=
  ⟨r.x + r.width / (1 + 1), r.y + r.height / (1 + 1)⟩

end Rectangle

end FogNet
