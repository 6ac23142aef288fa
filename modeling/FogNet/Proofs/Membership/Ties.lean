import FogNet.Membership.Steps
import FogNet.Proofs.Registry.Change

/-!
# Ties between nodes

Adding and removing several buddies at once, and the questions about other nodes that joining and
leaving ask: who has departed, and who has moved along to the same head. The answers depend on where
the nodes stand alone, so they survive a touch that leaves that as it is.
-/

namespace FogNet

namespace FogNode

/-- Add several buddies; a node is never its own. -/
def addBuddies (n : FogNode) (l : List EntityId) : FogNode :=
  { n with buddies := n.buddies.insertAll (l.filter (· != n.id)) }

/-- Take several buddies out. -/
def removeBuddies (n : FogNode) (l : List EntityId) : FogNode :=
  { n with buddies := n.buddies.eraseAll l }

variable {n : FogNode} {k a : EntityId} {l : List EntityId}

theorem ext_buddies {m : FogNode} (h : m = { n with buddies := m.buddies })
    (hb : ∀ k, k ∈ m.buddies ↔ k ∈ n.buddies) : m = n := by
  rw [h, SortedSet.ext_mem hb]

@[simp] theorem mem_addBuddies :
    k ∈ (n.addBuddies l).buddies ↔ k ∈ l ∧ k ≠ n.id ∨ k ∈ n.buddies := by
  simp [addBuddies]

@[simp] theorem mem_removeBuddies : k ∈ (n.removeBuddies l).buddies ↔ k ∉ l ∧ k ∈ n.buddies := by
  simp [removeBuddies]

theorem addBuddy_eq (n : FogNode) (a : EntityId) : n.addBuddy a = n.addBuddies [a] := by
  unfold addBuddy addBuddies
  by_cases h : a = n.id <;> simp [h, SortedSet.insertAll]

theorem removeBuddy_eq (n : FogNode) (a : EntityId) : n.removeBuddy a = n.removeBuddies [a] := rfl

theorem addBuddies_nil (n : FogNode) : n.addBuddies [] = n := rfl

theorem removeBuddies_nil (n : FogNode) : n.removeBuddies [] = n := rfl

theorem addBuddies_addBuddies (n : FogNode) (l m : List EntityId) :
    (n.addBuddies l).addBuddies m = n.addBuddies (l ++ m) := by
  refine ext_buddies rfl fun k => ?_
  have hid : (n.addBuddies l).id = n.id := rfl
  simp only [mem_addBuddies, List.mem_append, hid]
  tauto

theorem removeBuddies_removeBuddies (n : FogNode) (l m : List EntityId) :
    (n.removeBuddies l).removeBuddies m = n.removeBuddies (l ++ m) := by
  refine ext_buddies rfl fun k => ?_
  simp only [mem_removeBuddies, List.mem_append]
  tauto

theorem addBuddies_congr {m : List EntityId} (h : ∀ k, k ∈ l ↔ k ∈ m) :
    n.addBuddies l = n.addBuddies m := by
  refine ext_buddies rfl fun k => ?_
  rw [mem_addBuddies, mem_addBuddies, h]

theorem addBuddies_comm (n : FogNode) (l m : List EntityId) :
    (n.addBuddies l).addBuddies m = (n.addBuddies m).addBuddies l := by
  rw [addBuddies_addBuddies, addBuddies_addBuddies]
  refine addBuddies_congr fun k => ?_
  rw [List.mem_append, List.mem_append, or_comm]

theorem removeBuddies_congr {m : List EntityId} (h : ∀ k, k ∈ l ↔ k ∈ m) :
    n.removeBuddies l = n.removeBuddies m := by
  refine ext_buddies rfl fun k => ?_
  rw [mem_removeBuddies, mem_removeBuddies, h]

end FogNode

namespace Registry

/-- The nodes of a list that have not departed. -/
def living (r : Registry) (l : List EntityId) : List EntityId :=
  l.filter fun m => !r.isDepartedNode m

/-- Whether a node that has left for another owner finds a member there too. -/
def movedAlong (r : Registry) (head : EntityId) (owner : Option EntityId) (m : EntityId) : Bool :=
  owner.isSome && owner != some head &&
    match r.fogNode m with
    | .ok x => x.owner? == owner
    | .error _ => false

theorem isDepartedNode_of_ok {r : Registry} {k : EntityId} {n : FogNode} (h : r.fogNode k = .ok n) :
    r.isDepartedNode k = n.isDeparted := by
  unfold isDepartedNode
  rw [h]

theorem movedAlong_of_ok {r : Registry} {k : EntityId} {n : FogNode} (h : r.fogNode k = .ok n)
    (head : EntityId) (owner : Option EntityId) :
    r.movedAlong head owner k = (owner.isSome && owner != some head && n.owner? == owner) := by
  unfold movedAlong
  rw [h]

/-- The nodes of one registry stand in another where they stood. -/
def SameStandings (r q : Registry) : Prop :=
  ∀ {k n}, r.fogNode k = .ok n → ∃ m, q.fogNode k = .ok m ∧ m.standing = n.standing

theorem SameStandings.refl (r : Registry) : SameStandings r r := fun {_ n} h => ⟨n, h, rfl⟩

theorem SameStandings.touch {r q : Registry} {t : Touch} (h : SameStandings r q)
    (ht : ∀ k n, (t.node k n).standing = n.standing) : SameStandings r (q.touch t) := by
  intro k n hn
  obtain ⟨m, hm, hs⟩ := h hn
  exact ⟨_, fogNode_touch hm, (ht k m).trans hs⟩

end Registry

end FogNet
