import FogNet.Entity.Registry
import FogNet.Form.Plane

/-!
# Serialized entities

The entities and the registry as serialized values. Unknown fields are passed over, missing ones are
refused unless they are optional, and what a device offers is nothing where nothing is said.
-/

namespace FogNet

/-- The serialized form of what a device offers. -/
def Characteristics.toJson (c : Characteristics) : Json :=
  .obj [("mips", .ofNat c.mips), ("ram", .ofNat c.ram), ("uplink_bw", .ofNat c.uplink),
    ("downlink_bw", .ofNat c.downlink)]

/-- What a device with a serialized form offers. -/
def Characteristics.ofJson? (v : Json) : Option Characteristics := do
  let v ← v.leading? ["mips", "ram", "uplink_bw", "downlink_bw"]
  let mips ← v.fieldOr? "mips" Json.word? 0
  let ram ← v.fieldOr? "ram" Json.word? 0
  let uplink ← v.fieldOr? "uplink_bw" Json.word? 0
  let downlink ← v.fieldOr? "downlink_bw" Json.word? 0
  return ⟨mips, ram, uplink, downlink⟩

/-- The serialized form of a standing. -/
def Standing.toJson : Standing → Json
  | unassigned => .str "Unassigned"
  | owned head => .tagged "Owned" (.ofNat head)
  | departed => .str "Departed"

/-- The standing with a serialized form. -/
def Standing.ofJson? (v : Json) : Option Standing := do
  let (name, content) ← v.alternative?
  match name with
  | "Unassigned" => if Json.isBare content then some .unassigned else none
  | "Owned" => return .owned (← (← content).word?)
  | "Departed" => if Json.isBare content then some .departed else none
  | _ => none

/-- The serialized form of a transition. -/
def Transition.toJson : Transition → Json
  | joining target => .tagged "Joining" (.obj [("to", .ofNat target)])
  | relocating source target =>
    .tagged "Relocating" (.obj [("from", .ofNat source), ("to", .ofNat target)])
  | departing source => .tagged "Departing" (.obj [("from", .ofOption .ofNat source)])

/-- The transition with a serialized form. -/
def Transition.ofJson? (v : Json) : Option Transition := do
  let (name, content) ← v.alternative?
  let content ← content
  match name with
  | "Joining" => return .joining (← content.field? "to" Json.word?)
  | "Relocating" =>
    let source ← content.field? "from" Json.word?
    let target ← content.field? "to" Json.word?
    return .relocating source target
  | "Departing" => return .departing (← content.optional? "from" Json.word?)
  | _ => none

/-- The serialized form of a node. -/
def FogNode.toJson (n : FogNode) : Json :=
  .obj [("id", .ofNat n.id), ("name", .str n.name), ("level", .ofNat n.level),
    ("mobility", n.motion.toJson), ("characteristics", n.characteristics.toJson),
    ("state", n.standing.toJson), ("buddies", .ofSet n.buddies), ("links", .ofSet n.links),
    ("pending", .ofOption Transition.toJson n.pending)]

/-- The node with a serialized form. -/
def FogNode.ofJson? (v : Json) : Option FogNode := do
  let v ← v.record? ["id", "name", "level", "mobility", "characteristics", "state", "buddies",
    "links", "pending"]
  let id ← v.field? "id" Json.word?
  let name ← v.field? "name" Json.text?
  let level ← v.field? "level" Json.level?
  let motion ← v.field? "mobility" Motion.ofJson?
  let characteristics ← v.field? "characteristics" Characteristics.ofJson?
  let standing ← v.field? "state" Standing.ofJson?
  let buddies ← v.field? "buddies" Json.set?
  let links ← v.field? "links" Json.set?
  let pending ← v.optional? "pending" Transition.ofJson?
  return ⟨id, name, level, motion, characteristics, standing, buddies, links, pending⟩

/-- The serialized form of a list of numbers of entities. -/
def idsToJson (ids : List EntityId) : Json := .ofList .ofNat ids

/-- The serialized form of a head. -/
def PuddleHead.toJson (h : PuddleHead) : Json :=
  .obj [("id", .ofNat h.id), ("name", .str h.name), ("level", .ofNat h.level),
    ("coverage", h.coverage.toJson), ("anchor", h.anchor.toJson), ("members", idsToJson h.members),
    ("member_characteristics", .ofMap Characteristics.toJson h.memberCharacteristics),
    ("buddies", .ofSet h.buddies), ("parent", .ofOption .ofNat h.parent),
    ("children", idsToJson h.children), ("child_puddles", .ofMap idsToJson h.childPuddles),
    ("running_services", .ofMap (.ofList .str) h.runningServices), ("links", .ofSet h.links)]

/-- The head with a serialized form. -/
def PuddleHead.ofJson? (v : Json) : Option PuddleHead := do
  let v ← v.record? ["id", "name", "level", "coverage", "anchor", "members",
    "member_characteristics", "buddies", "parent", "children", "child_puddles", "running_services",
    "links"]
  let id ← v.field? "id" Json.word?
  let name ← v.field? "name" Json.text?
  let level ← v.field? "level" Json.level?
  let coverage ← v.field? "coverage" Polygon.ofJson?
  let anchor ← v.field? "anchor" Point.ofJson?
  let members ← v.field? "members" (Json.list? Json.word?)
  let offers ← v.field? "member_characteristics" (Json.map? Json.wordLimit Characteristics.ofJson?)
  let buddies ← v.field? "buddies" Json.set?
  let parent ← v.optional? "parent" Json.word?
  let children ← v.field? "children" (Json.list? Json.word?)
  let puddles ← v.field? "child_puddles" (Json.map? Json.wordLimit (Json.list? Json.word?))
  let services ← v.field? "running_services" (Json.map? Json.wordLimit (Json.list? Json.text?))
  let links ← v.field? "links" Json.set?
  return ⟨id, name, level, coverage, anchor, members, offers, buddies, parent, children, puddles,
    services, links⟩

/-- The serialized form of a link. -/
def Link.toJson (l : Link) : Json :=
  .obj [("id", .ofNat l.id), ("endpoints", .arr [.ofNat l.first, .ofNat l.second]),
    ("base_latency", .ofReal l.baseLatency), ("latency", .ofReal l.latency),
    ("bandwidth", .ofReal l.bandwidth), ("forward_queue", idsToJson l.forwardQueue),
    ("reverse_queue", idsToJson l.reverseQueue)]

/-- The link with a serialized form. -/
def Link.ofJson? (v : Json) : Option Link := do
  let v ← v.record? ["id", "endpoints", "base_latency", "latency", "bandwidth", "forward_queue",
    "reverse_queue"]
  let id ← v.field? "id" Json.word?
  let (first, second) ← v.field? "endpoints" Json.wordPair?
  let baseLatency ← v.field? "base_latency" Json.real?
  let latency ← v.field? "latency" Json.real?
  let bandwidth ← v.field? "bandwidth" Json.real?
  let forward ← v.field? "forward_queue" (Json.list? Json.word?)
  let reverse ← v.field? "reverse_queue" (Json.list? Json.word?)
  return ⟨id, first, second, baseLatency, latency, bandwidth, forward, reverse⟩

/-- The serialized form of a broker. -/
def Broker.toJson (b : Broker) : Json :=
  .obj [("id", .ofNat b.id), ("puddle_heads", idsToJson b.puddleHeads),
    ("heads_by_level", .ofMap idsToJson b.headsByLevel), ("fog_nodes", .ofSet b.fogNodes),
    ("links", idsToJson b.links)]

/-- The broker with a serialized form. -/
def Broker.ofJson? (v : Json) : Option Broker := do
  let v ← v.record? ["id", "puddle_heads", "heads_by_level", "fog_nodes", "links"]
  let id ← v.field? "id" Json.word?
  let heads ← v.field? "puddle_heads" (Json.list? Json.word?)
  let byLevel ← v.field? "heads_by_level" (Json.map? Json.levelLimit (Json.list? Json.word?))
  let nodes ← v.field? "fog_nodes" Json.set?
  let links ← v.field? "links" (Json.list? Json.word?)
  return ⟨id, heads, byLevel, nodes, links⟩

/-- The serialized form of an entity. -/
def Entity.toJson : Entity → Json
  | fogNode n => .tagged "FogNode" n.toJson
  | puddleHead h => .tagged "PuddleHead" h.toJson
  | link l => .tagged "Link" l.toJson
  | broker b => .tagged "Broker" b.toJson

/-- The entity with a serialized form. -/
def Entity.ofJson? (v : Json) : Option Entity := do
  let (name, content) ← v.alternative?
  let content ← content
  match name with
  | "FogNode" => return .fogNode (← FogNode.ofJson? content)
  | "PuddleHead" => return .puddleHead (← PuddleHead.ofJson? content)
  | "Link" => return .link (← Link.ofJson? content)
  | "Broker" => return .broker (← Broker.ofJson? content)
  | _ => none

/-- The serialized form of a registry. -/
def Registry.toJson (r : Registry) : Json :=
  .obj [("entities", .ofMap Entity.toJson r.entities), ("next_id", .ofNat r.nextId)]

/-- The registry with a serialized form. -/
def Registry.ofJson? (v : Json) : Option Registry := do
  let v ← v.record? ["entities", "next_id"]
  let entities ← v.field? "entities" (Json.map? Json.wordLimit Entity.ofJson?)
  let nextId ← v.field? "next_id" Json.word?
  return ⟨entities, nextId⟩

end FogNet
