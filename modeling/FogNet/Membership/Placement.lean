import FogNet.Entity.Registry

/-!
# Placement

The broker's decision on a node that has moved. It looks only at nodes that are not in the middle of
a change: one still covered by its head stays, any other goes to the first head of its level that
covers it, and one that no head covers has to leave.
-/

namespace FogNet

/-- What is to happen to a node. -/
inductive Placement where
  /-- It stays where it is. -/
  | stay
  /-- It is in no puddle and joins one. -/
  | join (target : EntityId)
  /-- It goes from one puddle to another. -/
  | relocate (source target : EntityId)
  /-- No puddle covers it. -/
  | depart (source : Option EntityId)
  /-- There is nothing to decide. -/
  | ignore
deriving DecidableEq

namespace Registry

/-- The first of some heads that covers a point. -/
def firstCovering (r : Registry) (p : Point Float) :
    List EntityId → Except Fault (Option EntityId)
  | [] => .ok none
  | head :: rest =>
    match r.puddleHead head with
    | .error e => .error e
    | .ok h => if h.covers p then .ok (some head) else r.firstCovering p rest

/-- The first head of a level, in the order of registration, that covers a point. -/
def findHead (r : Registry) (broker : Broker) (level : Level) (p : Point Float) :
    Except Fault (Option EntityId) :=
  r.firstCovering p (broker.headsAt level)

/-- The decision on a node that is not covered by its owner. -/
def newPlace (r : Registry) (broker : Broker) (n : FogNode) (owner : Option EntityId) :
    Except Fault Placement :=
  (r.findHead broker n.level n.position).map fun
    | some target =>
      match owner with
      | none => .join target
      | some source => .relocate source target
    | none => .depart owner

/-- The decision on a node. -/
def evaluate (r : Registry) (broker : Broker) (node : EntityId) : Except Fault Placement :=
  match r.fogNode node with
  | .error e => .error e
  | .ok n =>
    if n.pending.isSome then .ok .ignore
    else
      match n.standing with
      | .departed => .ok .ignore
      | .unassigned => r.newPlace broker n none
      | .owned head =>
        match r.puddleHead head with
        | .error _ => .ok .ignore
        | .ok h => if h.covers n.position then .ok .stay else r.newPlace broker n (some head)

end Registry

end FogNet
