import FogNet.Entity.Registry

/-!
# Consistency of the records

Membership is recorded in several places: the standing of a node, the list of its head, the buddy
sets, and the copies that parents keep. Each check compares two of them and reports the first
contradiction in the order of the numbers. A node that is being handed over may be listed by both
heads concerned.
-/

namespace FogNet.Registry

/-- Every entry of a buddy set is answered by the other side. -/
def checkMutual (lister : EntityId) (answers : EntityId → Bool) (buddies : SortedSet) :
    Except Violation Unit :=
  buddies.toList.forM fun buddy =>
    if answers buddy then .ok () else .error (.oneSidedBuddies lister buddy)

/-- Buddies list each other, nodes and heads alike. -/
def checkBuddySymmetry (r : Registry) : Except Violation Unit := do
  r.fogNodes.forM fun n =>
    let answers buddy :=
      match r.fogNode buddy with
      | .ok b => decide (n.id ∈ b.buddies)
      | .error _ => false
    checkMutual n.id answers n.buddies
  r.puddleHeads.forM fun h =>
    let answers buddy :=
      match r.puddleHead buddy with
      | .ok b => decide (h.id ∈ b.buddies)
      | .error _ => false
    checkMutual h.id answers h.buddies

/-- Whether a number stands for a node that has departed. -/
def isDepartedNode (r : Registry) (id : EntityId) : Bool :=
  match r.fogNode id with
  | .ok n => n.isDeparted
  | .error _ => false

/-- Departed nodes have no buddies and are nobody's. -/
def checkDepartedIsolated (r : Registry) : Except Violation Unit :=
  r.fogNodes.forM fun n =>
    n.buddies.toList.forM fun buddy =>
      if r.isDepartedNode buddy then .error (.departedBuddy n.id buddy)
      else if n.isDeparted then .error (.departedBuddy buddy n.id)
      else .ok ()

/-- Whether a node is being handed over between two heads, in either direction. -/
def isHandedOver (r : Registry) (node a b : EntityId) : Bool :=
  match r.fogNode node with
  | .error _ => false
  | .ok n =>
    match n.pending with
    | some (.relocating source target) =>
      (source == a && target == b) || (source == b && target == a)
    | _ => false

/-- All member lists, one entry at a time: which head lists which node. -/
def listings (r : Registry) : List (EntityId × EntityId) :=
  r.puddleHeads.flatMap fun h => h.members.map fun node => (h.id, node)

/-- No listed node was listed before by a head it is not handed over from or to. -/
def checkListings (r : Registry) : List (EntityId × EntityId) → SortedMap EntityId →
    Except Violation Unit
  | [], _ => .ok ()
  | (head, node) :: rest, listedBy =>
    match listedBy.get? node with
    | none => r.checkListings rest (listedBy.insert node head)
    | some first =>
      if r.isHandedOver node first head then r.checkListings rest listedBy
      else .error (.twoHeads node first head)

/-- A node is listed once, or twice while it is handed over. -/
def checkSingleOwnership (r : Registry) : Except Violation Unit :=
  r.checkListings r.listings .empty

/-- Whether a head may list a node: it owns the node, or has still to let it go. -/
def mayList (head : EntityId) (n : FogNode) : Bool :=
  n.standing == .owned head ||
    match n.pending with
    | some (.relocating source _) => source == head
    | some (.departing source) => source == some head
    | _ => false

/-- Heads list only what belongs to them, and owners list what they own. -/
def checkOwners (r : Registry) : Except Violation Unit := do
  r.puddleHeads.forM fun h =>
    h.members.forM fun member =>
      let belongs :=
        match r.fogNode member with
        | .ok n => mayList h.id n
        | .error _ => false
      if belongs then .ok () else .error (.strangeMember h.id member)
  r.fogNodes.forM fun n =>
    match n.standing with
    | .owned head =>
      let listed :=
        match r.puddleHead head with
        | .ok h => h.isMember n.id
        | .error _ => false
      if listed then .ok () else .error (.missingMember n.id head)
    | _ => .ok ()

/-- Parents have up-to-date copies of their children's members. -/
def checkCopies (r : Registry) : Except Violation Unit :=
  r.puddleHeads.forM fun h =>
    match h.parent with
    | none => .ok ()
    | some parent =>
      let current :=
        match r.puddleHead parent with
        | .ok p => p.childPuddles.get? h.id == some h.members
        | .error _ => false
      if current then .ok () else .error (.staleChild parent h.id)

/-- All checks, in a fixed order. -/
def checkAll (r : Registry) : Except Violation Unit := do
  r.checkBuddySymmetry
  r.checkDepartedIsolated
  r.checkSingleOwnership
  r.checkOwners
  r.checkCopies

end FogNet.Registry
