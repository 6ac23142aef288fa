import FogNet.Proofs.Membership.Agreement

/-!
# Consistent records

`Registry.Consistent` says when the records of a registry agree, as a statement about all pairs of
records at once. The checks decide it (`Registry.Numbered.decides_consistent`), although the pass
over the member lists compares each listing with the first one of its node only
(`Registry.checkListings_eq_ok_iff`), in every registry in which each entity is stored under its own
number and no head lists a node twice; how the registry has come about does not matter.
-/

namespace FogNet.Registry

/-- The records agree. -/
structure Consistent (r : Registry) : Prop where
  /-- The buddies of a node are nodes that have it among theirs. -/
  symmetric : ∀ {a b}, r.Befriends a b → r.Befriends b a
  /-- The siblings of a head are heads that have it among theirs. -/
  siblings : ∀ {k h a}, r.puddleHead k = .ok h → a ∈ h.buddies →
    ∃ g, r.puddleHead a = .ok g ∧ k ∈ g.buddies
  /-- Of two buddies, neither has departed. -/
  present : ∀ {a b}, r.Befriends a b → ¬ r.StandsAt a .departed ∧ ¬ r.StandsAt b .departed
  /-- What two heads list is a node that one of them hands over to the other. -/
  handedOver : ∀ {a b k}, a ≠ b → r.Lists a k → r.Lists b k → ∃ n, r.fogNode k = .ok n ∧
    (n.pending = some (.relocating a b) ∨ n.pending = some (.relocating b a))
  /-- What a head lists is a node that it owns or has still to let go. -/
  belongs : ∀ {a k}, r.Lists a k → ∃ n, r.fogNode k = .ok n ∧
    (n.standing = .owned a ∨ (∃ target, n.pending = some (.relocating a target)) ∨
      n.pending = some (.departing (some a)))
  /-- Owners are heads that list what they own. -/
  owned : ∀ {a k}, r.Owns a k → r.Lists a k
  /-- Parents have up-to-date copies. -/
  copied : r.Copied

variable {r : Registry} {a b c k : EntityId}

/-- A node is not listed by three heads. -/
theorem Consistent.eq_or_eq_of_lists (hr : r.Consistent) (hab : a ≠ b) (ha : r.Lists a k)
    (hb : r.Lists b k) (hc : r.Lists c k) : c = a ∨ c = b := by
  by_contra hother
  obtain ⟨hca, hcb⟩ := not_or.1 hother
  have hwithb := isHandedOver_iff.2 (hr.handedOver hab ha hb)
  have hwithc := isHandedOver_iff.2 (hr.handedOver (Ne.symm hca) ha hc)
  exact hcb (eq_of_isHandedOver hwithc hwithb)

theorem isDepartedNode_eq_false_iff : r.isDepartedNode k = false ↔ ¬ r.StandsAt k .departed := by
  rw [← Bool.not_eq_true, isDepartedNode_eq_true_iff]
  rfl

namespace Numbered

/-- Checking for departed nodes on both sides of a pair asks each side once. -/
theorem checkDepartedIsolated_eq_ok_iff (hr : r.Numbered) :
    r.checkDepartedIsolated = .ok () ↔
      ∀ {a b}, r.Befriends a b → ¬ r.StandsAt a .departed ∧ ¬ r.StandsAt b .departed := by
  rw [Registry.checkDepartedIsolated_eq_ok_iff hr]
  refine forall₂_congr fun a b => forall_congr' fun hab => ?_
  obtain ⟨n, hn, -⟩ := hab
  rw [isDepartedNode_eq_false_iff, lives_iff hn, standsAt_iff hn]

/-- The checks pass if and only if the records agree. -/
theorem checkAll_eq_ok_iff (hr : r.Numbered)
    (hnodup : ∀ {k h}, r.puddleHead k = .ok h → h.members.Nodup) :
    r.checkAll = .ok () ↔ r.Consistent := by
  unfold checkAll
  simp only [seq_eq_ok_iff]
  rw [checkBuddySymmetry_eq_ok_iff hr, hr.checkDepartedIsolated_eq_ok_iff,
    checkSingleOwnership_eq_ok_iff hr hnodup, checkOwners_eq_ok_iff hr, checkCopies_eq_ok_iff hr]
  simp only [isHandedOver_iff, MayList, mayList_iff]
  constructor
  · rintro ⟨⟨hnodes, hheads⟩, hpresent, htwo, ⟨hbelongs, howned⟩, hcopied⟩
    exact ⟨@hnodes, hheads _ _ _, hpresent, @htwo, @hbelongs, @howned, hcopied⟩
  · intro hc
    exact ⟨⟨@hc.symmetric, fun _ _ _ => hc.siblings⟩, hc.present, fun _ _ _ => hc.handedOver,
      ⟨fun _ _ => hc.belongs, fun _ _ => hc.owned⟩, hc.copied⟩

/-- The checks pass if and only if the records agree; then no node is listed by three heads. -/
theorem decides_consistent (hr : r.Numbered) (hnodup : ∀ h ∈ r.puddleHeads, h.members.Nodup) :
    (r.checkAll = .ok () ↔ r.Consistent) ∧
      (r.checkAll = .ok () → ∀ {a b c k}, a ≠ b → r.Lists a k → r.Lists b k → r.Lists c k →
        c = a ∨ c = b) := by
  have hiff := hr.checkAll_eq_ok_iff fun {k h} hh => hnodup h (mem_puddleHeads_iff.2 ⟨k, hh⟩)
  exact ⟨hiff, fun hok {a b c k} => (hiff.1 hok).eq_or_eq_of_lists⟩

end Numbered

namespace Transit

/-- A head that lists the node with number four. -/
def head (id : EntityId) : PuddleHead :=
  (PuddleHead.create id "head" 0 (.rectangle 0 0 1 1) ⟨0, 0⟩).addMember 4 .none

/-- A node that its first head has yet to release. -/
def node : FogNode :=
  ((FogNode.create 4 "node" 0 (.stationary ⟨0, 0⟩ ⟨0, 0, 1, 1⟩) .none).setOwner 3).start
    (.relocating 1 3)

/-- Two heads, with a node on its way from one to the other. -/
def registry : Registry :=
  ((Registry.empty.put 1 (.puddleHead (head 1))).put 3 (.puddleHead (head 3))).put 4 (.fogNode node)

/-- The same with a third head that lists the node. -/
def disputed : Registry := registry.put 2 (.puddleHead (head 2))

example : disputed.checkAll = .error (.twoHeads 4 1 2) := by rfl

/-- The records of a node on its way agree, and with a third head they do not. -/
theorem decides_registry : registry.Consistent ∧ ¬ disputed.Consistent := by
  have hn : registry.Numbered :=
    Numbered.put (Numbered.put (Numbered.put Numbered.empty rfl) rfl) rfl
  have hd : disputed.Numbered := Numbered.put hn rfl
  refine ⟨(Numbered.decides_consistent hn (by decide +kernel)).1.1 rfl, fun hc => ?_⟩
  have hok := (Numbered.decides_consistent hd (by decide +kernel)).1.2 hc
  have herror : disputed.checkAll = .error (.twoHeads 4 1 2) := rfl
  rw [herror] at hok
  cases hok

end Transit

end FogNet.Registry
