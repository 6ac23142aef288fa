import FogNet.Entity.Registry

/-!
# Joining and leaving

The two steps of which all membership changes are made. Both keep three records in agreement: the
member list of the head, the buddy sets of the nodes concerned, and the copy of the list that the
head's parent keeps.
-/

namespace FogNet.Change

/-- Make a node and a member of its new puddle buddies; a departed member is passed over. -/
def befriend (node member : EntityId) : Change Unit := do
  let m ← fogNode member
  if m.isDeparted then pure ()
  else
    updateNode member (·.addBuddy node)
    updateNode node (·.addBuddy member)

/-- Make a node a member of a head's puddle. The answer is false if it is listed or has departed. -/
def join (head node : EntityId) : Change Bool := do
  let h ← puddleHead head
  if h.isMember node then return false
  let n ← fogNode node
  if n.isDeparted then return false
  h.members.forM (befriend node)
  updateNode node (·.setOwner head)
  updateHead head (·.addMember node n.characteristics)
  refreshParent head
  return true

/-- Make a node and a member of its former puddle strangers, unless both have moved on to the same
puddle. -/
def estrange (head node : EntityId) (owner : Option EntityId) (member : EntityId) :
    Change Unit := do
  let movedAlong ←
    if owner.isSome && owner != some head then
      let m ← fogNode member
      pure (m.owner? == owner)
    else pure false
  if movedAlong then pure ()
  else
    updateNode member (·.removeBuddy node)
    updateNode node (·.removeBuddy member)

/-- Finish the change of a node that waited for a head to let it go. -/
def settleLeave (head : EntityId) (n : FogNode) : FogNode :=
  match n.pending with
  | some (.relocating source _) => if source = head then n.settle else n
  | some (.departing (some source)) => if source = head then n.settle else n
  | _ => n

/-- Cut the ties between a node that is no longer listed and the members that remain. -/
def cutTies (head node : EntityId) : Change Unit := do
  updateHead head (·.teardownServices node)
  let n ← fogNode node
  let h ← puddleHead head
  if n.isDeparted then
    h.members.forM fun member => updateNode member (·.removeBuddy node)
    updateNode node fun n => { n with buddies := .empty }
  else
    h.members.forM (estrange head node n.owner?)
    updateNode node (·.release head)
  refreshParent head

/-- Strike a node off a head's list. The answer is false if it was not listed. -/
def leave (head node : EntityId) : Change Bool := do
  let h ← puddleHead head
  updateHead head (·.removeMember node)
  let listed := h.isMember node
  if listed then cutTies head node
  updateNode node (settleLeave head)
  return listed

end FogNet.Change
