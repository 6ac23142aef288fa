import FogNet.Entity.Kind
import FogNet.Kernel.Event

/-!
# Messages

The messages of the membership protocol and the payloads of events that carry them.
-/

namespace FogNet

/-- What entities tell each other. -/
inductive Message where
  /-- The movement timer of a node, which it sends to itself. -/
  | updateLocation
  /-- A node asks the broker to look at its membership. -/
  | processNodeMove (node : EntityId)
  /-- The receiving head makes the node a member. -/
  | joinPuddle (node : EntityId)
  /-- The receiving head strikes the node off. -/
  | leavePuddle (node : EntityId)
  /-- The receiving head takes the node over from its owner. -/
  | relocate (node : EntityId)
  /-- The receiving node leaves the network. -/
  | nodeLeave
  /-- The receiving link looks at the distance of its ends. -/
  | updateLatency
deriving DecidableEq

/-- The text of a message. -/
def Message.text : Message → String
  | updateLocation => "UPDATE_LOCATION"
  | processNodeMove node => s!"PROCESS_NODE_MOVE({node.text})"
  | joinPuddle node => s!"NODE_JOIN_PUDDLEHEAD({node.text})"
  | leavePuddle node => s!"NODE_LEAVE_PUDDLEHEAD({node.text})"
  | relocate node => s!"NODE_RELOCATE_PUDDLE({node.text})"
  | nodeLeave => "NODE_LEAVE"
  | updateLatency => "UPDATE_LATENCY"

/-- What an event carries. -/
inductive Payload where
  /-- Nothing. -/
  | noop
  /-- A message from one entity to another. -/
  | deliver (sender receiver : EntityId) (message : Message)
deriving DecidableEq

/-- The text of a payload. -/
def Payload.text : Payload → String
  | noop => "Noop"
  | deliver sender receiver message =>
    s!"Deliver({sender.text} → {receiver.text}, {message.text})"

/-- A message that is to be sent after some ticks. -/
structure Outgoing where
  /-- The ticks until it arrives. -/
  delay : Nat
  /-- Who sends it. -/
  sender : EntityId
  /-- Who gets it. -/
  receiver : EntityId
  /-- What it says. -/
  message : Message
deriving DecidableEq

/-- The record of a delivered message. -/
structure TraceEntry where
  /-- When it was delivered. -/
  time : Time
  /-- The event that carried it. -/
  eventId : EventId
  /-- Who sent it. -/
  sender : EntityId
  /-- Who got it. -/
  receiver : EntityId
  /-- What it said. -/
  message : Message
deriving DecidableEq

/-- The text of a trace entry. -/
def TraceEntry.text (t : TraceEntry) : String :=
  s!"[T={t.time} E=#{t.eventId}] {t.sender.text} -> {t.receiver.text} {t.message.text}"

/-- The record of the message an event carries, if it carries one. -/
def TraceEntry.ofEvent? (now : Time) (event : Event Payload) : Option TraceEntry :=
  match event.payload with
  | .noop => none
  | .deliver sender receiver message => some ⟨now, event.id, sender, receiver, message⟩

end FogNet
