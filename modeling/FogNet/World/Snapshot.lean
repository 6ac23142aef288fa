import FogNet.World.Basic

/-!
# Snapshots

What a report shows of a network at one instant, by ascending number.
-/

namespace FogNet

/-- What is shown of a node. -/
structure NodeView where
  /-- Its number. -/
  id : EntityId
  /-- Its name. -/
  name : String
  /-- The level of the puddles it may join. -/
  level : Level
  /-- Where it stands in the protocol. -/
  standing : Standing
  /-- Where it is. -/
  position : Point Float
  /-- The nodes it shares a puddle with. -/
  buddies : List EntityId

/-- What is shown of a head. -/
structure HeadView where
  /-- Its number. -/
  id : EntityId
  /-- Its name. -/
  name : String
  /-- Its level. -/
  level : Level
  /-- The head above it. -/
  parent : Option EntityId
  /-- The heads below it. -/
  children : List EntityId
  /-- Its members in the order they joined. -/
  members : List EntityId

/-- What is shown of a link. -/
structure LinkView where
  /-- Its number. -/
  id : EntityId
  /-- One endpoint. -/
  first : EntityId
  /-- The other endpoint. -/
  second : EntityId
  /-- Its current latency. -/
  latency : Float

/-- What is shown of a network at one instant. -/
structure Snapshot where
  /-- The instant. -/
  time : Time
  /-- How many messages have been delivered. -/
  messagesDelivered : Nat
  /-- How many nodes are in the network. -/
  activeFogNodes : Nat
  /-- The heads. -/
  puddleHeads : List HeadView
  /-- The nodes. -/
  fogNodes : List NodeView
  /-- The links. -/
  links : List LinkView

/-- The view of a node. -/
def FogNode.view (n : FogNode) : NodeView :=
  ⟨n.id, n.name, n.level, n.standing, n.position, n.buddies.toList⟩

/-- The view of a head. -/
def PuddleHead.view (h : PuddleHead) : HeadView :=
  ⟨h.id, h.name, h.level, h.parent, h.children, h.members⟩

/-- The view of a link. -/
def Link.view (l : Link) : LinkView := ⟨l.id, l.first, l.second, l.latency⟩

/-- What is shown of a network. -/
def World.snapshot (w : World) (now : Time) : Snapshot where
  time := now
  messagesDelivered := w.trace.size
  activeFogNodes := w.activeCount
  puddleHeads := w.registry.puddleHeads.map PuddleHead.view
  fogNodes := w.registry.fogNodes.map FogNode.view
  links := w.registry.links.map Link.view

end FogNet
