import FogNet.Membership.Message
import FogNet.Membership.Placement
import FogNet.Membership.Settings
import FogNet.Membership.Steps
import FogNet.Plane.Polar

/-!
# Reactions

What each kind of entity does with a message. A reaction changes the registry and answers with the
messages to be sent, in order; sending them is left to whoever runs the network. A message that the
receiving kind does not deal with is dropped.
-/

namespace FogNet.Change

/-- A node reports its movement, to its links and to the broker, and sets its timer again. -/
def reportMovement (s : Settings) (broker : EntityId) (now : Time) (id : EntityId) :
    Change (List Outgoing) := do
  let n ← fogNode id
  if n.isDeparted || !n.motion.mobile then return []
  updateNode id (·.advance now)
  let ticks := n.links.toList.map fun link => ⟨s.messageDelay, id, link, .updateLatency⟩
  return ⟨s.locationUpdateInterval, id, id, .updateLocation⟩ :: ticks ++
    [⟨s.messageDelay, id, broker, .processNodeMove id⟩]

/-- A node leaves the network: its buddies forget it and its head is told. -/
def leaveNetwork (s : Settings) (id : EntityId) : Change (List Outgoing) := do
  let n ← fogNode id
  if n.isDeparted then return []
  updateNode id (·.depart)
  n.buddies.toList.forM fun buddy => updateNode buddy (·.removeBuddy id)
  match n.owner? with
  | none => return []
  | some head => return [⟨s.messageDelay, id, head, .leavePuddle id⟩]

/-- What a node does with a message. -/
def onFogNode (s : Settings) (broker : EntityId) (now : Time) (id : EntityId) :
    Message → Change (List Outgoing)
  | .updateLocation => reportMovement s broker now id
  | .nodeLeave => leaveNetwork s id
  | _ => return []

/-- A head takes a node in that asked to join. -/
def takeIn (id node : EntityId) : Change (List Outgoing) := do
  discard (join id node)
  updateNode node fun n => if n.pending = some (.joining id) then n.settle else n
  return []

/-- A head takes a node over and tells the former owner to let it go. -/
def takeOver (s : Settings) (id node : EntityId) : Change (List Outgoing) := do
  let n ← fogNode node
  if n.isDeparted then return []
  match n.owner? with
  | some owner =>
    if owner = id then
      updateNode node (·.settle)
      return []
    discard (join id node)
    return [⟨s.handoffDelay, id, owner, .leavePuddle node⟩]
  | none =>
    discard (join id node)
    updateNode node (·.settle)
    return []

/-- What a head does with a message. -/
def onPuddleHead (s : Settings) (id : EntityId) : Message → Change (List Outgoing)
  | .joinPuddle node => takeIn id node
  | .relocate node => takeOver s id node
  | .leavePuddle node => do
    discard (leave id node)
    return []
  | _ => return []

/-- The broker starts the membership change that a moved node needs. -/
def place (s : Settings) (id node : EntityId) : Change (List Outgoing) := do
  let placement ← read fun r => r.broker id >>= fun b => r.evaluate b node
  match placement with
  | .stay => return []
  | .ignore => return []
  | .join target =>
    updateNode node (·.start (.joining target))
    return [⟨s.messageDelay, id, target, .joinPuddle node⟩]
  | .relocate source target =>
    updateNode node (·.start (.relocating source target))
    return [⟨s.messageDelay, id, target, .relocate node⟩]
  | .depart source =>
    updateNode node (·.start (.departing source))
    updateBroker id (·.forgetNode node)
    return [⟨s.messageDelay, id, node, .nodeLeave⟩]

/-- What the broker does with a message. -/
def onBroker (s : Settings) (id : EntityId) : Message → Change (List Outgoing)
  | .processNodeMove node => place s id node
  | _ => return []

/-- A link looks at the distance of its ends and lets the oldest message of each direction go. -/
def measure (s : Settings) (id : EntityId) : Change (List Outgoing) := do
  let l ← link id
  let first ← read (·.entity l.first)
  let second ← read (·.entity l.second)
  match first.position?, second.position? with
  | some p, some q =>
    updateLink id fun l => (l.recomputeLatency (p.distanceTo q) s.propagationSpeed).releaseOldest.2
    return []
  | _, _ => return []

/-- What a link does with a message. -/
def onLink (s : Settings) (id : EntityId) : Message → Change (List Outgoing)
  | .updateLatency => measure s id
  | _ => return []

/-- What the receiver of a message does, by its kind. -/
def react (s : Settings) (broker : EntityId) (now : Time) (receiver : EntityId)
    (message : Message) : Change (List Outgoing) := do
  match ← read (·.kind receiver) with
  | .fogNode => onFogNode s broker now receiver message
  | .puddleHead => onPuddleHead s receiver message
  | .broker => onBroker s receiver message
  | .link => onLink s receiver message

end FogNet.Change
