import FogNet.Plane.Motion
import FogNet.Plane.Polar
import FogNet.Random.ChaCha

/-!
# Random headings

A heading is a fraction of a full turn made from the upper 52 bits of a random word. The fraction is
at most `1 - 2 ^ -52`, so its product with a full turn rounds to less than a full turn.
-/

namespace FogNet.Random

/-- A full turn in radians. -/
def fullTurn : Float := Float.ofBits 0x401921FB54442D18

/-- The fraction between zero and one whose bits after the point are the upper 52 of a word. -/
def fraction (word : UInt64) : Float :=
  Float.ofBits ((word >>> 12) ||| 0x3FF0000000000000) - 1

/-- A heading in radians, and the generator after it. -/
def Generator.heading (g : Generator) : Float × Generator :=
  let (word, g) := g.next
  (fraction word * fullTurn + 0, g)

/-- The generator after some headings have been drawn. -/
def Generator.skip (g : Generator) : Nat → Generator
  | 0 => g
  | count + 1 => skip g.heading.2 count

end FogNet.Random

namespace FogNet.Motion

/-- Something that moves at a given speed along a random heading, and the generator after it. -/
def randomHeading (position : Point Float) (speed : Float) (bounds : Rectangle Float)
    (g : Random.Generator) : Motion Float × Random.Generator :=
  let (heading, g) := g.heading
  (moving position (Vec.ofPolar speed heading) bounds, g)

end FogNet.Motion
