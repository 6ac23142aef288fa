import FogNet.Membership.Settings
import FogNet.Entity.FogNode

/-!
# Scenarios

A scenario describes a network and the constants of its run. Heads and nodes share one space of
names, by which parents and the ends of links refer to them; nothing has been checked yet.
-/

namespace FogNet

/-- The description of a head. -/
structure HeadEntry where
  /-- Its name. -/
  name : String
  /-- Its level. -/
  level : Level
  /-- Where it stands. -/
  anchor : Point Float
  /-- The corners of the area that it covers. -/
  coverage : List (Point Float)
  /-- The name of the head above it. -/
  parent : Option String

/-- The description of a node. -/
structure NodeEntry where
  /-- Its name. -/
  name : String
  /-- The level of the puddles it may join. -/
  level : Level
  /-- Where it starts. -/
  position : Point Float
  /-- The rectangle it stays in, with extents of any sign. -/
  bounds : Rectangle Float
  /-- Its velocity, which counts before its speed. -/
  velocity : Option (Vec Float)
  /-- Its speed along a random heading. -/
  speed : Option Float
  /-- Whether it moves at all. -/
  mobile : Bool
  /-- What it offers. -/
  characteristics : Characteristics
  /-- The modules that run on it from the start. -/
  services : List String

/-- The description of a link. -/
structure LinkEntry where
  /-- The name of one end. -/
  first : String
  /-- The name of the other end. -/
  second : String
  /-- The latency. -/
  latency : Float
  /-- The bandwidth. -/
  bandwidth : Float

/-- The description of a network and of its run. -/
structure Scenario where
  /-- The constants of the run. -/
  settings : Settings
  /-- The heads. -/
  heads : List HeadEntry
  /-- The nodes. -/
  nodes : List NodeEntry
  /-- The links. -/
  links : List LinkEntry

end FogNet
