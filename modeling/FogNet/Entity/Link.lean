import FogNet.Entity.Kind

/-!
# Links

A link joins two entities and holds two queues of byte counts, one for each direction of traffic. A
direction is named by the endpoint that sends; what is sent by anything else is refused.
-/

namespace FogNet

/-- A direction of traffic over a link. -/
inductive Direction where
  /-- From the first endpoint to the second. -/
  | forward
  /-- From the second endpoint to the first. -/
  | reverse
deriving DecidableEq

/-- A channel between two entities. -/
structure Link where
  /-- Its number. -/
  id : EntityId
  /-- One endpoint. -/
  first : EntityId
  /-- The other endpoint. -/
  second : EntityId
  /-- The latency it was built with. -/
  baseLatency : Float
  /-- The latency over the current distance. -/
  latency : Float
  /-- Bytes per tick. -/
  bandwidth : Float
  /-- Byte counts sent by the first endpoint, oldest first. -/
  forwardQueue : List Nat
  /-- Byte counts sent by the second endpoint, oldest first. -/
  reverseQueue : List Nat

namespace Link

/-- A link with empty queues. -/
def create (id first second : EntityId) (latency bandwidth : Float) : Link :=
  ⟨id, first, second, latency, latency, bandwidth, [], []⟩

/-- Whether the link joins two entities, in either order. -/
def connects (l : Link) (a b : EntityId) : Bool :=
  (l.first == a && l.second == b) || (l.first == b && l.second == a)

/-- The direction of what an endpoint sends. -/
def directionFrom? (l : Link) (sender : EntityId) : Option Direction :=
  if sender = l.first then some .forward
  else if sender = l.second then some .reverse
  else none

/-- The endpoint opposite to a given one. -/
def otherEnd? (l : Link) (sender : EntityId) : Option EntityId :=
  (l.directionFrom? sender).map fun
    | .forward => l.second
    | .reverse => l.first

/-- The latency over a distance, if signals have a positive speed. -/
def recomputeLatency (l : Link) (distance speed : Float) : Link :=
  { l with latency := if 0 < speed then l.baseLatency + distance / speed else l.baseLatency }

/-- The byte counts waiting in a direction, oldest first. -/
def queue (l : Link) : Direction → List Nat
  | .forward => l.forwardQueue
  | .reverse => l.reverseQueue

/-- The link with another queue in a direction. -/
def setQueue (l : Link) (queue : List Nat) : Direction → Link
  | .forward => { l with forwardQueue := queue }
  | .reverse => { l with reverseQueue := queue }

/-- Queue a byte count behind those its sender has queued, and say whether it was accepted. -/
def enqueue (l : Link) (sender : EntityId) (bytes : Nat) : Bool × Link :=
  match l.directionFrom? sender with
  | some d => (true, l.setQueue (l.queue d ++ [bytes]) d)
  | none => (false, l)

/-- Take out the oldest byte count of a sender. -/
def dequeue (l : Link) (sender : EntityId) : Option Nat × Link :=
  match l.directionFrom? sender with
  | some d =>
    match l.queue d with
    | [] => (none, l)
    | bytes :: rest => (some bytes, l.setQueue rest d)
  | none => (none, l)

/-- Take out the oldest byte count of each endpoint, and say how many there were. -/
def releaseOldest (l : Link) : Nat × Link :=
  let (a, l) := l.dequeue l.first
  let (b, l) := l.dequeue l.second
  (a.isSome.toNat + b.isSome.toNat, l)

/-- The bytes a sender has waiting. -/
def queuedBytes (l : Link) (sender : EntityId) : Nat :=
  match l.directionFrom? sender with
  | some d => (l.queue d).foldl (· + ·) 0
  | none => 0

/-- The delay of a new message behind those its sender has waiting. -/
def estimatedDelay (l : Link) (sender : EntityId) (bytes : Nat) : Float :=
  if 0 < l.bandwidth then
    l.latency + Float.ofNat (l.queuedBytes sender + bytes) / l.bandwidth
  else l.latency

end Link

end FogNet
