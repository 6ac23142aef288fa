import FogNet.Entity.Kind

/-!
# Violations of membership

What a consistency check can find, with its wording.
-/

namespace FogNet

/-- A contradiction between the records of different entities. -/
inductive Violation where
  /-- One side lists the other as a buddy and is not listed back. -/
  | oneSidedBuddies (lister listed : EntityId)
  /-- A node has two heads without being handed over between them. -/
  | twoHeads (node first second : EntityId)
  /-- A head lists what does not belong to it. -/
  | strangeMember (head node : EntityId)
  /-- The owner of a node does not list it. -/
  | missingMember (node head : EntityId)
  /-- A head's copy of a child's members is out of date. -/
  | staleChild (parent child : EntityId)
  /-- A buddy relation involves a departed node. -/
  | departedBuddy (node departed : EntityId)
deriving DecidableEq

/-- The wording of a violation. -/
def Violation.message : Violation → String
  | oneSidedBuddies lister listed =>
    s!"{lister.text} lists {listed.text} as a buddy but not the other way round"
  | twoHeads node first second =>
    s!"node {node.text} is listed by both {first.text} and {second.text}"
  | strangeMember head node => s!"{head.text} lists {node.text}, which does not belong to it"
  | missingMember node head =>
    s!"node {node.text} is owned by {head.text} but missing from its member list"
  | staleChild parent child =>
    s!"{parent.text} holds a stale snapshot of child puddle {child.text}"
  | departedBuddy node departed =>
    s!"{node.text} still lists departed node {departed.text} as a buddy"

end FogNet
