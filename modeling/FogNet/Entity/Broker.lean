import FogNet.Collection.SortedMap
import FogNet.Collection.SortedSet
import FogNet.Entity.Kind

/-!
# The broker

The broker coordinates all puddles. It keeps indices only: the heads in the order they were
registered, the same by level, the nodes that are in the network, and the links.
-/

namespace FogNet

/-- The coordinator of all puddles. -/
structure Broker where
  /-- Its number. -/
  id : EntityId
  /-- All heads in the order of registration. -/
  puddleHeads : List EntityId
  /-- The heads of each level in the order of registration. -/
  headsByLevel : SortedMap (List EntityId)
  /-- The nodes in the network. -/
  fogNodes : SortedSet
  /-- All links in the order of registration. -/
  links : List EntityId

namespace Broker

/-- A broker that knows nothing yet. -/
def create (id : EntityId) : Broker := ⟨id, [], .empty, .empty, []⟩

/-- The heads of a level in the order of registration. -/
def headsAt (b : Broker) (level : Level) : List EntityId := (b.headsByLevel.get? level).getD []

/-- Note a new head. -/
def registerHead (b : Broker) (head : EntityId) (level : Level) : Broker :=
  { b with
    puddleHeads := b.puddleHeads ++ [head]
    headsByLevel := b.headsByLevel.insert level (b.headsAt level ++ [head]) }

/-- Note a new node. -/
def registerNode (b : Broker) (node : EntityId) : Broker :=
  { b with fogNodes := b.fogNodes.insert node }

/-- Note a new link. -/
def registerLink (b : Broker) (link : EntityId) : Broker := { b with links := b.links ++ [link] }

/-- Take a node off the index of those in the network. -/
def forgetNode (b : Broker) (node : EntityId) : Broker :=
  { b with fogNodes := b.fogNodes.erase node }

/-- Whether a node is in the network. -/
def isActive (b : Broker) (node : EntityId) : Bool := decide (node ∈ b.fogNodes)

end Broker

end FogNet
