import FogNet.Plane.Coordinate

/-!
# Displacements and points

A `Vec` is a displacement or a velocity, a `Point` a place; both are pairs of coordinates.
-/

namespace FogNet

/-- A displacement in the plane, or a velocity. -/
structure Vec (α : Type) where
  /-- The part along the first axis. -/
  x : α
  /-- The part along the second axis. -/
  y : α
deriving BEq, DecidableEq

/-- A place in the plane. -/
structure Point (α : Type) where
  /-- The first coordinate. -/
  x : α
  /-- The second coordinate. -/
  y : α
deriving BEq, DecidableEq

namespace Vec

variable {α : Type} [Coordinate α]

/-- No displacement. -/
def zero : Vec α := ⟨0, 0⟩

/-- The displacement stretched by a factor. -/
def scaled (v : Vec α) (factor : α) : Vec α := ⟨v.x * factor, v.y * factor⟩

end Vec

namespace Point

variable {α : Type} [Coordinate α]

/-- The point reached by moving with velocity `v` for `dt` ticks. -/
def displaced (p : Point α) (v : Vec α) (dt : α) : Point α := ⟨p.x + v.x * dt, p.y + v.y * dt⟩

end Point

end FogNet
