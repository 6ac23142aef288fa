import FogNet.Entity.Broker
import FogNet.Entity.Link
import FogNet.Entity.PuddleHead
import FogNet.Fault

/-!
# The registry

The registry owns every entity under its number and hands out fresh numbers, starting from one. A
look-up names the kind it expects and says what it found instead. A `Change` is a step that reads
and writes the registry and may fail half way; what it wrote before stays written.
-/

namespace FogNet

/-- An entity of any kind. -/
inductive Entity where
  /-- A mobile device. -/
  | fogNode (node : FogNode)
  /-- The coordinator of a puddle. -/
  | puddleHead (head : PuddleHead)
  /-- A channel. -/
  | link (link : Link)
  /-- The coordinator of all puddles. -/
  | broker (broker : Broker)

namespace Entity

/-- The kind of an entity. -/
def kind : Entity → EntityKind
  | fogNode _ => .fogNode
  | puddleHead _ => .puddleHead
  | link _ => .link
  | broker _ => .broker

/-- Where an entity sits; links and the broker sit nowhere. -/
def position? : Entity → Option (Point Float)
  | fogNode node => some node.position
  | puddleHead head => some head.anchor
  | link _ => none
  | broker _ => none

/-- The entity as a node. -/
def fogNode? : Entity → Option FogNode
  | fogNode node => some node
  | _ => none

/-- The entity as a head. -/
def puddleHead? : Entity → Option PuddleHead
  | puddleHead head => some head
  | _ => none

/-- The entity as a link. -/
def link? : Entity → Option Link
  | link l => some l
  | _ => none

/-- The entity as a broker. -/
def broker? : Entity → Option Broker
  | broker b => some b
  | _ => none

/-- Note a link that ends at the entity; links and the broker take no note. -/
def attachLink (linkId : EntityId) : Entity → Entity
  | fogNode node => fogNode (node.attachLink linkId)
  | puddleHead head => puddleHead (head.attachLink linkId)
  | link l => link l
  | broker b => broker b

end Entity

/-- All entities by number. -/
structure Registry where
  /-- The entities. -/
  entities : SortedMap Entity
  /-- The next fresh number. -/
  nextId : EntityId

namespace Registry

/-! ## Look-ups -/

/-- A registry without entities; zero is never handed out. -/
def empty : Registry := ⟨.empty, 1⟩

/-- Whether a number is taken. -/
def contains (r : Registry) (id : EntityId) : Bool := r.entities.contains id

/-- The number of entities. -/
def size (r : Registry) : Nat := r.entities.size

/-- The entity with a number. -/
def entity (r : Registry) (id : EntityId) : Except Fault Entity :=
  match r.entities.get? id with
  | some e => .ok e
  | none => .error (.unknownEntity id)

/-- The kind of the entity with a number. -/
def kind (r : Registry) (id : EntityId) : Except Fault EntityKind :=
  (r.entity id).map Entity.kind

/-- The entity with a number, seen as one of an expected kind. -/
def lookup {α : Type} (r : Registry) (expected : EntityKind) (view : Entity → Option α)
    (id : EntityId) : Except Fault α :=
  match r.entity id with
  | .error e => .error e
  | .ok e =>
    match view e with
    | some a => .ok a
    | none => .error (.kindMismatch id expected e.kind)

/-- The node with a number. -/
def fogNode (r : Registry) (id : EntityId) : Except Fault FogNode :=
  r.lookup .fogNode Entity.fogNode? id

/-- The head with a number. -/
def puddleHead (r : Registry) (id : EntityId) : Except Fault PuddleHead :=
  r.lookup .puddleHead Entity.puddleHead? id

/-- The link with a number. -/
def link (r : Registry) (id : EntityId) : Except Fault Link :=
  r.lookup .link Entity.link? id

/-- The broker with a number. -/
def broker (r : Registry) (id : EntityId) : Except Fault Broker :=
  r.lookup .broker Entity.broker? id

/-- All nodes by ascending number. -/
def fogNodes (r : Registry) : List FogNode := r.entities.values.filterMap Entity.fogNode?

/-- All heads by ascending number. -/
def puddleHeads (r : Registry) : List PuddleHead := r.entities.values.filterMap Entity.puddleHead?

/-- All links by ascending number. -/
def links (r : Registry) : List Link := r.entities.values.filterMap Entity.link?

/-! ## Additions -/

/-- The next fresh number, and the registry in which it is used up. -/
def allocate (r : Registry) : EntityId × Registry := (r.nextId, { r with nextId := r.nextId + 1 })

/-- The registry with an entity in the place of a number. -/
def put (r : Registry) (id : EntityId) (e : Entity) : Registry :=
  { r with entities := r.entities.insert id e }

/-- Store an entity under a number that is not taken. -/
def insert (r : Registry) (id : EntityId) (e : Entity) : Except Fault Registry :=
  if r.contains id then .error (.duplicateEntity id) else .ok (r.put id e)

end Registry

/-! ## Changes -/

/-- A step on the registry that may fail and keeps what it did before. -/
abbrev Change (α : Type) := EStateM Fault Registry α

namespace Change

/-- Read something from the registry. -/
def read {α : Type} (look : Registry → Except Fault α) : Change α := fun r =>
  match look r with
  | .ok a => .ok a r
  | .error e => .error e r

/-- Fail. -/
def fail {α : Type} (fault : Fault) : Change α := fun r => .error fault r

/-- The node with a number. -/
def fogNode (id : EntityId) : Change FogNode := read (·.fogNode id)

/-- The head with a number. -/
def puddleHead (id : EntityId) : Change PuddleHead := read (·.puddleHead id)

/-- The link with a number. -/
def link (id : EntityId) : Change Link := read (·.link id)

/-- Store an entity in the place of a number. -/
def put (id : EntityId) (e : Entity) : Change Unit := fun r => .ok () (r.put id e)

/-- Change the node with a number. -/
def updateNode (id : EntityId) (f : FogNode → FogNode) : Change Unit := do
  let n ← fogNode id
  put id (.fogNode (f n))

/-- Change the head with a number. -/
def updateHead (id : EntityId) (f : PuddleHead → PuddleHead) : Change Unit := do
  let h ← puddleHead id
  put id (.puddleHead (f h))

/-- Change the link with a number. -/
def updateLink (id : EntityId) (f : Link → Link) : Change Unit := do
  let l ← link id
  put id (.link (f l))

/-- Change the broker with a number. -/
def updateBroker (id : EntityId) (f : Broker → Broker) : Change Unit := do
  let b ← read (·.broker id)
  put id (.broker (f b))

/-- Change an entity of any kind. -/
def updateEntity (id : EntityId) (f : Entity → Entity) : Change Unit := do
  let e ← read (·.entity id)
  put id (f e)

/-- Store a new entity under a number that is not taken. -/
def insert (id : EntityId) (e : Entity) : Change Unit := fun r =>
  match r.insert id e with
  | .ok r => .ok () r
  | .error fault => .error fault r

/-- Use up the next fresh number. -/
def allocate : Change EntityId := fun r => .ok r.allocate.1 r.allocate.2

/-! ## The tree of heads -/

/-- Put a head below another one: it becomes a buddy of the heads already there, and its members are
copied to its parent. -/
def adoptChild (parent child : EntityId) : Change Unit := do
  if parent = child then fail (.hierarchy parent child .ownParent)
  let above ← puddleHead parent
  let below ← puddleHead child
  if below.parent.isSome then fail (.hierarchy parent child .hasParent)
  if below.level ≠ above.level + 1 then fail (.hierarchy parent child .levelGap)
  above.children.forM fun sibling => do
    updateHead sibling (·.addBuddy child)
    updateHead child (·.addBuddy sibling)
  updateHead parent (·.addChild child below.members)
  updateHead child (·.setParent parent)

/-- Renew the copy of a head's members that its parent keeps. -/
def refreshParent (head : EntityId) : Change Unit := do
  let h ← puddleHead head
  match h.parent with
  | none => pure ()
  | some parent => updateHead parent (·.refreshChild head h.members)

end Change

end FogNet
