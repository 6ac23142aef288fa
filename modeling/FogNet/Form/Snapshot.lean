import FogNet.Form.Entity
import FogNet.World.Snapshot

/-!
# Serialized snapshots

The forms in which a snapshot is reported and read back.
-/

namespace FogNet

/-- The serialized form of the view of a node. -/
def NodeView.toJson (n : NodeView) : Json :=
  .obj [("id", .ofNat n.id), ("name", .str n.name), ("level", .ofNat n.level),
    ("state", n.standing.toJson), ("position", n.position.toJson),
    ("buddies", idsToJson n.buddies)]

/-- The view of a node with a serialized form. -/
def NodeView.ofJson? (v : Json) : Option NodeView := do
  let v ← v.record? ["id", "name", "level", "state", "position", "buddies"]
  let id ← v.field? "id" Json.word?
  let name ← v.field? "name" Json.text?
  let level ← v.field? "level" Json.level?
  let standing ← v.field? "state" Standing.ofJson?
  let position ← v.field? "position" Point.ofJson?
  let buddies ← v.field? "buddies" (Json.list? Json.word?)
  return ⟨id, name, level, standing, position, buddies⟩

/-- The serialized form of the view of a head. -/
def HeadView.toJson (h : HeadView) : Json :=
  .obj [("id", .ofNat h.id), ("name", .str h.name), ("level", .ofNat h.level),
    ("parent", .ofOption .ofNat h.parent), ("children", idsToJson h.children),
    ("members", idsToJson h.members)]

/-- The view of a head with a serialized form. -/
def HeadView.ofJson? (v : Json) : Option HeadView := do
  let v ← v.record? ["id", "name", "level", "parent", "children", "members"]
  let id ← v.field? "id" Json.word?
  let name ← v.field? "name" Json.text?
  let level ← v.field? "level" Json.level?
  let parent ← v.optional? "parent" Json.word?
  let children ← v.field? "children" (Json.list? Json.word?)
  let members ← v.field? "members" (Json.list? Json.word?)
  return ⟨id, name, level, parent, children, members⟩

/-- The serialized form of the view of a link. -/
def LinkView.toJson (l : LinkView) : Json :=
  .obj [("id", .ofNat l.id), ("endpoints", .arr [.ofNat l.first, .ofNat l.second]),
    ("latency", .ofReal l.latency)]

/-- The view of a link with a serialized form. -/
def LinkView.ofJson? (v : Json) : Option LinkView := do
  let v ← v.record? ["id", "endpoints", "latency"]
  let id ← v.field? "id" Json.word?
  let (first, second) ← v.field? "endpoints" Json.wordPair?
  let latency ← v.field? "latency" Json.real?
  return ⟨id, first, second, latency⟩

/-- The serialized form of a snapshot. -/
def Snapshot.toJson (s : Snapshot) : Json :=
  .obj [("time", .ofNat s.time), ("messages_delivered", .ofNat s.messagesDelivered),
    ("active_fog_nodes", .ofNat s.activeFogNodes),
    ("puddle_heads", .ofList HeadView.toJson s.puddleHeads),
    ("fog_nodes", .ofList NodeView.toJson s.fogNodes), ("links", .ofList LinkView.toJson s.links)]

/-- The snapshot with a serialized form. -/
def Snapshot.ofJson? (v : Json) : Option Snapshot := do
  let v ← v.record? ["time", "messages_delivered", "active_fog_nodes", "puddle_heads", "fog_nodes",
    "links"]
  let time ← v.field? "time" Json.word?
  let delivered ← v.field? "messages_delivered" Json.word?
  let active ← v.field? "active_fog_nodes" Json.word?
  let heads ← v.field? "puddle_heads" (Json.list? HeadView.ofJson?)
  let nodes ← v.field? "fog_nodes" (Json.list? NodeView.ofJson?)
  let links ← v.field? "links" (Json.list? LinkView.ofJson?)
  return ⟨time, delivered, active, heads, nodes, links⟩

end FogNet
