import FogNet.Proofs.Membership.Ties

/-!
# Joining as a touch

`join_of_fresh`: the head lists the node, all members that have not departed become its buddies, and
the parent's copy of the list is renewed, in one touch of the registry. In all other cases a join
changes nothing.
-/

namespace FogNet

open Registry (SameStandings)

namespace Touch

/-- A node and some others become buddies. -/
def friendship (node : EntityId) (friends : List EntityId) : Touch :=
  { nothing with
    node := fun k m =>
      if k = node then m.addBuddies friends else if k ∈ friends then m.addBuddies [node] else m }

theorem friendship_nil (node : EntityId) : friendship node [] = nothing := by
  unfold friendship nothing
  simp [FogNode.addBuddies_nil]

theorem friendship_cons (node a : EntityId) (l : List EntityId) :
    (friendship node [a]).andThen (friendship node l) = friendship node (a :: l) := by
  refine Touch.ext (funext fun k => funext fun m => ?_) rfl rfl rfl
  simp only [andThen, friendship, List.mem_cons, List.not_mem_nil, or_false]
  by_cases hk : k = node
  · simp [hk, FogNode.addBuddies_addBuddies]
  · by_cases ha : k = a
    · have hdup : (m.addBuddies [node]).addBuddies [node] = m.addBuddies [node] := by
        rw [FogNode.addBuddies_addBuddies]
        exact FogNode.addBuddies_congr fun j => by simp
      subst ha
      simp [hk, hdup]
    · simp [hk, ha]

/-- What becomes of the heads when one changes and its parent renews the copy of its list. -/
def relisting (head : EntityId) (parent : Option EntityId) (f : PuddleHead → PuddleHead)
    (members : List EntityId) (k : EntityId) (g : PuddleHead) : PuddleHead :=
  let g := if k = head then f g else g
  if parent = some k then g.refreshChild head members else g

/-- A head's parent renews the copy of its list. -/
def copying (head : EntityId) (parent : Option EntityId) (members : List EntityId) : Touch :=
  { nothing with head := fun k g => if parent = some k then g.refreshChild head members else g }

/-- A head takes a node in that meets some friends there. -/
def admission (head node : EntityId) (h : PuddleHead) (offer : Characteristics)
    (friends : List EntityId) : Touch :=
  { nothing with
    node := fun k m =>
      if k = node then { m.addBuddies friends with standing := .owned head }
      else if k ∈ friends then m.addBuddies [node] else m
    head := relisting head h.parent (·.addMember node offer) (h.members ++ [node]) }

theorem standing_friendship (node : EntityId) (l : List EntityId) (k : EntityId) (m : FogNode) :
    ((friendship node l).node k m).standing = m.standing := by
  unfold friendship
  simp only
  split_ifs <;> rfl

end Touch

namespace Change

variable {r : Registry} {head node a : EntityId} {n x : FogNode} {members : List EntityId}

theorem befriend_eq (hn : r.fogNode node = .ok n) (ha : r.fogNode a = .ok x) (hne : a ≠ node) :
    befriend node a r =
      .ok () (if !x.isDeparted then r.touch (.friendship node [a]) else r) := by
  unfold befriend
  rw [bind_of_ok (fogNode_of_ok ha)]
  cases hx : x.isDeparted with
  | true => rfl
  | false =>
    rw [if_neg (by simp), bind_of_ok (updateNode_of_ok _ ha),
      updateNode_of_ok _ (Registry.fogNode_touch hn), Registry.touch_touch, if_pos (by simp)]
    congr 1
    refine Registry.touch_congr (fun k m _ => ?_) (fun _ _ _ => rfl) rfl rfl
    simp only [Touch.andThen, Touch.onNode, Touch.friendship, List.mem_singleton,
      FogNode.addBuddy_eq]
    by_cases hk : k = node
    · subst hk
      simp [Ne.symm hne]
    · simp [hk]

/-- Meeting the members one after the other makes friends of all that have not departed. -/
theorem forM_befriend (hn : r.fogNode node = .ok n)
    (hmem : ∀ m ∈ members, ∃ x, r.fogNode m = .ok x) (hne : node ∉ members) :
    members.forM (befriend node) r = .ok () (r.touch (.friendship node (r.living members))) := by
  refine forM_touch _ _ _ (fun q => SameStandings r q) (Touch.friendship_nil node)
    (Touch.friendship_cons node) ?_ ?_ ?_
  · intro q hq m hm
    obtain ⟨x, hx⟩ := hmem m hm
    obtain ⟨y, hy, hxy⟩ := hq hx
    obtain ⟨k, hk, -⟩ := hq hn
    rw [befriend_eq hk hy (fun h => hne (h ▸ hm)), Registry.isDepartedNode_of_ok hx]
    unfold FogNode.isDeparted
    rw [hxy]
  · exact fun q hq a _ => hq.touch (Touch.standing_friendship node [a])
  · exact SameStandings.refl r

/-- Renewing the copy that a parent keeps touches the parent only. -/
theorem refreshParent_of_ok {h : PuddleHead} (hh : r.puddleHead head = .ok h)
    (hparent : ∀ p, h.parent = some p → ∃ g, r.puddleHead p = .ok g) :
    refreshParent head r = .ok () (r.touch (.copying head h.parent h.members)) := by
  unfold refreshParent
  rw [bind_of_ok (puddleHead_of_ok hh)]
  cases hp : h.parent with
  | none =>
    have ht : Touch.copying head none h.members = .nothing := rfl
    rw [ht, Registry.touch_nothing]
    rfl
  | some p =>
    obtain ⟨g, hg⟩ := hparent p hp
    show updateHead p _ r = _
    rw [updateHead_of_ok _ hg]
    congr 1
    refine Registry.touch_congr (fun _ _ _ => rfl) (fun k g _ => ?_) rfl rfl
    by_cases hk : k = p
    · simp [Touch.onHead, Touch.copying, hk]
    · simp [Touch.onHead, Touch.copying, Touch.nothing, hk, Ne.symm hk]

/-- A node that is not listed and has not departed is made a member. -/
theorem join_of_fresh {h : PuddleHead} (hh : r.puddleHead head = .ok h)
    (hn : r.fogNode node = .ok n) (hnew : node ∉ h.members) (hlive : n.isDeparted = false)
    (hmem : ∀ m ∈ h.members, ∃ x, r.fogNode m = .ok x)
    (hparent : ∀ p, h.parent = some p → ∃ g, r.puddleHead p = .ok g) :
    join head node r =
      .ok true (r.touch (.admission head node h n.characteristics (r.living h.members))) := by
  have hmember : h.isMember node = false := by
    unfold PuddleHead.isMember
    simpa using hnew
  have hnow : h.addMember node n.characteristics =
      { h with
        members := h.members ++ [node]
        memberCharacteristics := h.memberCharacteristics.insert node n.characteristics } := by
    simp [PuddleHead.addMember, hmember]
  -- the registry when the head has taken the node in and its parent has not looked yet
  let q := ((r.touch (.friendship node (r.living h.members))).touch
    (.onNode node (·.setOwner head))).touch (.onHead head (·.addMember node n.characteristics))
  have hq : q.puddleHead head = .ok (h.addMember node n.characteristics) := by
    have := Registry.puddleHead_touch (t := .onHead head (·.addMember node n.characteristics))
      (Registry.puddleHead_touch (t := .onNode node (·.setOwner head))
        (Registry.puddleHead_touch (t := .friendship node (r.living h.members)) hh))
    refine this.trans ?_
    simp [Touch.onHead, Touch.onNode, Touch.friendship, Touch.nothing]
  have hqparent : ∀ p, (h.addMember node n.characteristics).parent = some p →
      ∃ g, q.puddleHead p = .ok g := by
    intro p hp
    rw [hnow] at hp
    obtain ⟨g, hg⟩ := hparent p hp
    exact ⟨_, Registry.puddleHead_touch (Registry.puddleHead_touch (Registry.puddleHead_touch hg))⟩
  unfold join
  rw [bind_of_ok (puddleHead_of_ok hh), if_neg (by simp [hmember]), bind_of_ok (fogNode_of_ok hn),
    if_neg (by simp [hlive]), bind_of_ok (forM_befriend hn hmem hnew),
    bind_of_ok (updateNode_of_ok _ (Registry.fogNode_touch hn)),
    bind_of_ok (updateHead_of_ok _ (Registry.puddleHead_touch (Registry.puddleHead_touch hh))),
    bind_of_ok (refreshParent_of_ok hq hqparent), pure_run, hnow]
  simp only [q, Registry.touch_touch]
  congr 1
  refine Registry.touch_congr (fun k m hm => ?_) (fun k g hg => rfl) rfl rfl
  by_cases hk : k = node
  · subst hk
    obtain rfl : m = n := Except.ok.inj (hm.symm.trans hn)
    have hset : (m.addBuddies (r.living h.members)).setOwner head =
        { m.addBuddies (r.living h.members) with standing := .owned head } :=
      if_neg (show ¬ m.isDeparted = true by simp [hlive])
    simp [Touch.andThen, Touch.friendship, Touch.onNode, Touch.onHead, Touch.copying, Touch.nothing,
      Touch.admission, hset]
  · simp [Touch.andThen, Touch.friendship, Touch.onNode, Touch.onHead, Touch.copying, Touch.nothing,
      Touch.admission, hk]

theorem join_of_listed {h : PuddleHead} (hh : r.puddleHead head = .ok h)
    (hlisted : node ∈ h.members) : join head node r = .ok false r := by
  unfold join
  rw [bind_of_ok (puddleHead_of_ok hh), if_pos (by simpa [PuddleHead.isMember] using hlisted)]
  rfl

theorem join_of_stale {h : PuddleHead} (hh : r.puddleHead head = .ok h)
    (hn : r.fogNode node = .ok n)
    (hstale : node ∈ h.members ∨ n.isDeparted = true) : join head node r = .ok false r := by
  by_cases hlisted : node ∈ h.members
  · exact join_of_listed hh hlisted
  · have hd : n.isDeparted = true := hstale.resolve_left hlisted
    unfold join
    rw [bind_of_ok (puddleHead_of_ok hh), if_neg (by simpa [PuddleHead.isMember] using hlisted),
      bind_of_ok (fogNode_of_ok hn), if_pos hd]
    rfl

theorem join_of_unknown {h : PuddleHead} {fault : Fault} (hh : r.puddleHead head = .ok h)
    (hn : r.fogNode node = .error fault) (hnew : node ∉ h.members) :
    join head node r = .error fault r := by
  unfold join
  rw [bind_of_ok (puddleHead_of_ok hh), if_neg (by simpa [PuddleHead.isMember] using hnew),
    bind_of_error (fogNode_of_error hn)]

end Change

end FogNet
