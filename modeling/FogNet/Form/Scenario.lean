import FogNet.Form.Entity
import FogNet.Form.Settings
import FogNet.Scenario.Basic

/-!
# Serialized scenarios

A scenario with everything it leaves out filled in. Points and displacements are pairs here.
-/

namespace FogNet

/-- A pair of numbers. -/
def pairToJson (x y : Float) : Json := .arr [.ofReal x, .ofReal y]

/-- The serialized form of the description of a head. -/
def HeadEntry.toJson (h : HeadEntry) : Json :=
  .obj [("name", .str h.name), ("level", .ofNat h.level),
    ("anchor", pairToJson h.anchor.x h.anchor.y),
    ("coverage", .ofList (fun p => pairToJson p.x p.y) h.coverage),
    ("parent", .ofOption .str h.parent)]

/-- The serialized form of the description of a node. -/
def NodeEntry.toJson (n : NodeEntry) : Json :=
  .obj [("name", .str n.name), ("level", .ofNat n.level),
    ("position", pairToJson n.position.x n.position.y), ("bounds", n.bounds.toJson),
    ("velocity", .ofOption (fun v => pairToJson v.x v.y) n.velocity),
    ("speed", .ofOption .ofReal n.speed), ("mobile", .bool n.mobile),
    ("characteristics", n.characteristics.toJson), ("services", .ofList .str n.services)]

/-- The serialized form of the description of a link. -/
def LinkEntry.toJson (l : LinkEntry) : Json :=
  .obj [("a", .str l.first), ("b", .str l.second), ("latency", .ofReal l.latency),
    ("bandwidth", .ofReal l.bandwidth)]

/-- The serialized form of a scenario. -/
def Scenario.toJson (s : Scenario) : Json :=
  .obj [("simulation", s.settings.toJson), ("puddle_heads", .ofList HeadEntry.toJson s.heads),
    ("fog_nodes", .ofList NodeEntry.toJson s.nodes), ("links", .ofList LinkEntry.toJson s.links)]

end FogNet
