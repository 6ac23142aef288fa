import FogNet.Collection.SortedSet
import FogNet.Entity.Kind
import FogNet.Plane.Motion

/-!
# Fog nodes

A fog node is a mobile device that belongs to at most one puddle at a time. Its `Standing` says
where it stands in the membership protocol, its `Transition` which change the broker has begun and
not yet seen finished.
-/

namespace FogNet

/-- What a device offers. -/
structure Characteristics where
  /-- Processing capacity. -/
  mips : Nat
  /-- Memory. -/
  ram : Nat
  /-- Bandwidth towards the network. -/
  uplink : Nat
  /-- Bandwidth from the network. -/
  downlink : Nat
deriving DecidableEq

/-- A device that offers nothing. -/
def Characteristics.none : Characteristics := ⟨0, 0, 0, 0⟩

/-- Where a node stands in the membership protocol. -/
inductive Standing where
  /-- In no puddle. -/
  | unassigned
  /-- In the puddle of a head. -/
  | owned (head : EntityId)
  /-- Gone for good. -/
  | departed
deriving DecidableEq

/-- The head of the puddle a node is in. -/
def Standing.owner? : Standing → Option EntityId
  | owned head => some head
  | unassigned => none
  | departed => none

/-- A membership change that has been started and not finished. -/
inductive Transition where
  /-- A request to join is on its way to a head. -/
  | joining (target : EntityId)
  /-- A head will take the node over and then release it from another. -/
  | relocating (source target : EntityId)
  /-- The node is leaving the network; its last head has not let it go yet. -/
  | departing (source : Option EntityId)
deriving DecidableEq

/-- A mobile device. -/
structure FogNode where
  /-- Its number. -/
  id : EntityId
  /-- Its name. -/
  name : String
  /-- The level of the puddles it may join. -/
  level : Level
  /-- Where it is and how it moves. -/
  motion : Motion Float
  /-- What it offers. -/
  characteristics : Characteristics
  /-- Where it stands in the protocol. -/
  standing : Standing
  /-- The nodes it shares a puddle with. -/
  buddies : SortedSet
  /-- The links that end at it. -/
  links : SortedSet
  /-- The change it is in the middle of. -/
  pending : Option Transition

namespace FogNode

/-- A node in no puddle, without links. -/
def create (id : EntityId) (name : String) (level : Level) (motion : Motion Float)
    (characteristics : Characteristics) : FogNode :=
  ⟨id, name, level, motion, characteristics, .unassigned, .empty, .empty, none⟩

/-- Where the node is. -/
def position (n : FogNode) : Point Float := n.motion.position

/-- The head of the puddle the node is in. -/
def owner? (n : FogNode) : Option EntityId := n.standing.owner?

/-- Whether the node is gone for good. -/
def isDeparted (n : FogNode) : Bool := n.standing == .departed

/-- Make a head the owner, unless the node has departed. -/
def setOwner (n : FogNode) (head : EntityId) : FogNode :=
  if n.isDeparted then n else { n with standing := .owned head }

/-- Drop the ownership of a head; another owner stays. -/
def release (n : FogNode) (head : EntityId) : FogNode :=
  if n.standing = .owned head then { n with standing := .unassigned } else n

/-- Add a buddy; a node is never its own. -/
def addBuddy (n : FogNode) (buddy : EntityId) : FogNode :=
  if buddy = n.id then n else { n with buddies := n.buddies.insert buddy }

/-- Take a buddy out. -/
def removeBuddy (n : FogNode) (buddy : EntityId) : FogNode :=
  { n with buddies := n.buddies.erase buddy }

/-- Note a link that ends at the node. -/
def attachLink (n : FogNode) (link : EntityId) : FogNode := { n with links := n.links.insert link }

/-- Start a membership change. -/
def start (n : FogNode) (transition : Transition) : FogNode := { n with pending := some transition }

/-- Finish whatever membership change there was. -/
def settle (n : FogNode) : FogNode := { n with pending := none }

/-- Leave the network: no buddies stay, and a head that owned the node has still to let it go. -/
def depart (n : FogNode) : FogNode :=
  { n with
    standing := .departed
    buddies := .empty
    pending := n.owner?.map fun head => .departing (some head) }

/-- Move to an instant. -/
def advance (n : FogNode) (now : Time) : FogNode := { n with motion := n.motion.advance now }

end FogNode

end FogNet
