import FogNet.Plane.Point
import FogNet.Decimal.Rounding

/-!
# Lengths and headings

Lengths, angles and polar displacements exist for doubles only, since they need square roots and
trigonometry.
-/

namespace FogNet

/-- The length of the diagonal over two sides, without overflow on the way. -/
def hypotenuse (x y : Float) : Float :=
  let a := x.abs
  let b := y.abs
  if a.isInf || b.isInf then 1 / 0
  else if a.isNaN || b.isNaN then 0 / 0
  else
    let long := larger a b
    if long == 0 then 0
    else
      let ratio := lesser a b / long
      long * (1 + ratio * ratio).sqrt

namespace Vec

/-- The displacement of a length along a heading in radians. -/
def ofPolar (magnitude angle : Float) : Vec Float :=
  ⟨magnitude * angle.cos, magnitude * angle.sin⟩

/-- The length of a displacement. -/
def magnitude (v : Vec Float) : Float := hypotenuse v.x v.y

/-- The heading in radians, counter-clockwise from the first axis. -/
def angle (v : Vec Float) : Float := Float.atan2 v.y v.x

end Vec

namespace Point

/-- The straight distance between two points. -/
def distanceTo (p q : Point Float) : Float := hypotenuse (p.x - q.x) (p.y - q.y)

/-- The text of a point, with three places each. -/
def text (p : Point Float) : String :=
  s!"({Decimal.fixedText 3 p.x}, {Decimal.fixedText 3 p.y})"

end Point

end FogNet
