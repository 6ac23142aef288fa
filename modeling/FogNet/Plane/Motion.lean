import FogNet.Kernel.Time
import FogNet.Plane.Point
import FogNet.Plane.Rectangle

/-!
# Wrapped motion

A mover keeps a constant velocity inside a bounding rectangle. What crosses a side comes back in
from the opposite one, displaced by as much as it had gone past; a position on the far side itself
stays where it is. `Motion.advance` moves by the time since the last update and never moves that
update backwards.
-/

namespace FogNet

/-- A coordinate brought into the range of an axis, by whole extents. -/
def wrapAxis {α : Type} [Coordinate α] (value origin extent : α) : α :=
  if origin ≤ value ∧ value ≤ origin + extent then value
  else
    let offset := Coordinate.remainder (value - origin) extent
    if extent ≤ offset then origin else origin + offset

/-- The state of something that moves inside a rectangle. -/
structure Motion (α : Type) where
  /-- Where it is. -/
  position : Point α
  /-- The displacement per tick. -/
  velocity : Vec α
  /-- The rectangle it stays in. -/
  bounds : Rectangle α
  /-- Whether it moves at all. -/
  mobile : Bool
  /-- The latest instant it was advanced to. -/
  lastUpdate : Time

namespace Motion

variable {α : Type} [Coordinate α]

/-- The same motion with its position brought into the bounds. -/
def wrapped (m : Motion α) : Motion α :=
  { m with
    position :=
      ⟨wrapAxis m.position.x m.bounds.x m.bounds.width,
        wrapAxis m.position.y m.bounds.y m.bounds.height⟩ }

/-- Something that moves with a fixed velocity from instant zero on. -/
def moving (position : Point α) (velocity : Vec α) (bounds : Rectangle α) : Motion α :=
  wrapped ⟨position, velocity, bounds, true, 0⟩

/-- Something that stays where it is. -/
def stationary (position : Point α) (bounds : Rectangle α) : Motion α :=
  { moving position Vec.zero bounds with mobile := false }

/-- The same motion, allowed to move or not. -/
def setMobile (m : Motion α) (mobile : Bool) : Motion α := { m with mobile := mobile }

/-- The same motion with another velocity; the position is kept. -/
def setDirection (m : Motion α) (velocity : Vec α) : Motion α := { m with velocity := velocity }

/-- Move by the time since the last update and wrap; at or before the last update nothing moves. -/
def advance (m : Motion α) (now : Time) : Motion α :=
  let elapsed := now.elapsed m.lastUpdate
  let moved :=
    if m.mobile ∧ 0 < elapsed then
      wrapped { m with position := m.position.displaced m.velocity (Coordinate.ofTicks elapsed) }
    else m
  { moved with lastUpdate := max m.lastUpdate now }

end Motion

end FogNet
