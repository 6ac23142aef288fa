import FogNet.Json.Access
import FogNet.Membership.Message

/-!
# Serialized messages and events

A message without content is its bare name, any other an object with the name as its only field.
-/

namespace FogNet

/-- The content of a message that is about a node. -/
def nodeContent (node : EntityId) : Json := .obj [("node", .ofNat node)]

/-- The serialized form of a message. -/
def Message.toJson : Message → Json
  | updateLocation => .str "UpdateLocation"
  | processNodeMove node => .tagged "ProcessNodeMove" (nodeContent node)
  | joinPuddle node => .tagged "NodeJoinPuddleHead" (nodeContent node)
  | leavePuddle node => .tagged "NodeLeavePuddleHead" (nodeContent node)
  | relocate node => .tagged "NodeRelocatePuddle" (nodeContent node)
  | nodeLeave => .str "NodeLeave"
  | updateLatency => .str "UpdateLatency"

/-- The message with a serialized form. -/
def Message.ofJson? (v : Json) : Option Message := do
  let (name, content) ← v.alternative?
  let bare (m : Message) : Option Message := if Json.isBare content then some m else none
  let about (make : EntityId → Message) : Option Message := do
    return make (← (← content).field? "node" Json.word?)
  match name with
  | "UpdateLocation" => bare .updateLocation
  | "ProcessNodeMove" => about .processNodeMove
  | "NodeJoinPuddleHead" => about .joinPuddle
  | "NodeLeavePuddleHead" => about .leavePuddle
  | "NodeRelocatePuddle" => about .relocate
  | "NodeLeave" => bare .nodeLeave
  | "UpdateLatency" => bare .updateLatency
  | _ => none

/-- The serialized form of a payload. -/
def Payload.toJson : Payload → Json
  | noop => .str "Noop"
  | deliver sender receiver message =>
    .tagged "Deliver"
      (.obj [("from", .ofNat sender), ("to", .ofNat receiver), ("message", message.toJson)])

/-- The payload with a serialized form. -/
def Payload.ofJson? (v : Json) : Option Payload := do
  let (name, content) ← v.alternative?
  match name with
  | "Noop" => if Json.isBare content then some .noop else none
  | "Deliver" =>
    let content ← content
    let sender ← content.field? "from" Json.word?
    let receiver ← content.field? "to" Json.word?
    let message ← content.field? "message" Message.ofJson?
    return .deliver sender receiver message
  | _ => none

/-- The serialized form of an event. -/
def Event.toJson (e : Event Payload) : Json :=
  .obj [("id", .ofNat e.id), ("scheduled_at", .ofNat e.time), ("payload", e.payload.toJson)]

/-- The event with a serialized form. -/
def Event.ofJson? (v : Json) : Option (Event Payload) := do
  let v ← v.record? ["id", "scheduled_at", "payload"]
  let id ← v.field? "id" Json.word?
  let time ← v.field? "scheduled_at" Json.word?
  let payload ← v.field? "payload" Payload.ofJson?
  return ⟨id, time, payload⟩

end FogNet
