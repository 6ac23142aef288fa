import FogNet.Json.Access
import FogNet.Plane.Motion
import FogNet.Plane.Polygon

/-!
# Serialized geometry

Points, rectangles, polygons and motions as serialized values. A rectangle is taken as it is, and a
motion is not wrapped when it is read; a polygon needs three vertices.
-/

namespace FogNet

/-- The serialized form of a displacement. -/
def Vec.toJson (v : Vec Float) : Json := .obj [("x", .ofReal v.x), ("y", .ofReal v.y)]

/-- The displacement with a serialized form. -/
def Vec.ofJson? (v : Json) : Option (Vec Float) := do
  let v ← v.record? ["x", "y"]
  return ⟨← v.field? "x" Json.real?, ← v.field? "y" Json.real?⟩

/-- The serialized form of a point. -/
def Point.toJson (p : Point Float) : Json := .obj [("x", .ofReal p.x), ("y", .ofReal p.y)]

/-- The point with a serialized form. -/
def Point.ofJson? (v : Json) : Option (Point Float) := do
  let v ← v.record? ["x", "y"]
  return ⟨← v.field? "x" Json.real?, ← v.field? "y" Json.real?⟩

/-- The serialized form of a rectangle. -/
def Rectangle.toJson (r : Rectangle Float) : Json :=
  .obj [("x", .ofReal r.x), ("y", .ofReal r.y), ("width", .ofReal r.width),
    ("height", .ofReal r.height)]

/-- The rectangle with a serialized form. -/
def Rectangle.ofJson? (v : Json) : Option (Rectangle Float) := do
  let v ← v.record? ["x", "y", "width", "height"]
  let x ← v.field? "x" Json.real?
  let y ← v.field? "y" Json.real?
  let width ← v.field? "width" Json.real?
  let height ← v.field? "height" Json.real?
  return ⟨x, y, width, height⟩

/-- The serialized form of a polygon. -/
def Polygon.toJson (p : Polygon Float) : Json := .ofList Point.toJson p.vertices

/-- The polygon with a serialized form. -/
def Polygon.ofJson? (v : Json) : Option (Polygon Float) := do
  (ofVertices (← v.list? Point.ofJson?)).toOption

/-- The serialized form of a motion. -/
def Motion.toJson (m : Motion Float) : Json :=
  .obj [("position", m.position.toJson), ("velocity", m.velocity.toJson),
    ("bounds", m.bounds.toJson), ("mobile", .bool m.mobile), ("last_update", .ofNat m.lastUpdate)]

/-- The motion with a serialized form. -/
def Motion.ofJson? (v : Json) : Option (Motion Float) := do
  let v ← v.record? ["position", "velocity", "bounds", "mobile", "last_update"]
  let position ← v.field? "position" Point.ofJson?
  let velocity ← v.field? "velocity" Vec.ofJson?
  let bounds ← v.field? "bounds" Rectangle.ofJson?
  let mobile ← v.field? "mobile" Json.truth?
  let lastUpdate ← v.field? "last_update" Json.word?
  return ⟨position, velocity, bounds, mobile, lastUpdate⟩

end FogNet
