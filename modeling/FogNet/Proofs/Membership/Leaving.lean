import FogNet.Proofs.Membership.Joining

/-!
# Leaving as a touch

`leave_of_listed`: the head strikes the node off and forgets its services, the node and those of the
remaining members that have not moved along with it are buddies no longer, and the parent's copy of
the list is renewed, in one touch of the registry. A node that is not listed has at most its change
finished.
-/

namespace FogNet

open Registry (SameStandings)

/-- The record of a node without the given buddies; a departed node keeps none. -/
def FogNode.cutOff (n : FogNode) (strangers : List EntityId) : FogNode :=
  if n.isDeparted then { n with buddies := .empty } else n.removeBuddies strangers

/-- The members that remain with a head and lose their tie to a node that leaves it. -/
def Registry.strangers (r : Registry) (head node : EntityId) (h : PuddleHead) (n : FogNode) :
    List EntityId :=
  (h.members.filter (· != node)).filter fun m => !r.movedAlong head n.owner? m

namespace Touch

/-- Some nodes forget a buddy. -/
def forgetting (node : EntityId) (ids : List EntityId) : Touch :=
  { nothing with node := fun k m => if k ∈ ids then m.removeBuddies [node] else m }

/-- A node and some others are buddies no longer. -/
def separation (node : EntityId) (strangers : List EntityId) : Touch :=
  { nothing with
    node := fun k m =>
      if k = node then m.removeBuddies strangers
      else if k ∈ strangers then m.removeBuddies [node] else m }

/-- A node that its head has struck off loses its services and its ties to some members there. -/
def parting (head node : EntityId) (h : PuddleHead) (strangers : List EntityId) : Touch :=
  { nothing with
    node := fun k m =>
      if k = node then (m.cutOff strangers).release head
      else if k ∈ strangers then m.removeBuddies [node] else m
    head := relisting head h.parent (·.teardownServices node) h.members }

/-- A head strikes a node off that loses its ties to some members there. -/
def dismissal (head node : EntityId) (h : PuddleHead) (strangers : List EntityId) : Touch :=
  { nothing with
    node := fun k m =>
      if k = node then Change.settleLeave head ((m.cutOff strangers).release head)
      else if k ∈ strangers then m.removeBuddies [node] else m
    head := relisting head h.parent (fun g => (g.removeMember node).teardownServices node)
      (h.members.filter (· != node)) }

theorem forgetting_nil (node : EntityId) : forgetting node [] = nothing := by
  unfold forgetting nothing
  simp

theorem forgetting_cons (node a : EntityId) (l : List EntityId) :
    (forgetting node [a]).andThen (forgetting node l) = forgetting node (a :: l) := by
  refine Touch.ext (funext fun k => funext fun m => ?_) rfl rfl rfl
  have hdup : (m.removeBuddies [node]).removeBuddies [node] = m.removeBuddies [node] := by
    rw [FogNode.removeBuddies_removeBuddies]
    exact FogNode.removeBuddies_congr fun j => by simp
  simp only [andThen, forgetting, List.mem_cons, List.not_mem_nil, or_false]
  by_cases ha : k = a
  · subst ha
    simp [hdup]
  · simp [ha]

theorem separation_nil (node : EntityId) : separation node [] = nothing := by
  unfold separation nothing
  simp [FogNode.removeBuddies_nil]

theorem separation_cons (node a : EntityId) (l : List EntityId) :
    (separation node [a]).andThen (separation node l) = separation node (a :: l) := by
  refine Touch.ext (funext fun k => funext fun m => ?_) rfl rfl rfl
  have hdup : (m.removeBuddies [node]).removeBuddies [node] = m.removeBuddies [node] := by
    rw [FogNode.removeBuddies_removeBuddies]
    exact FogNode.removeBuddies_congr fun j => by simp
  simp only [andThen, separation, List.mem_cons, List.not_mem_nil, or_false]
  by_cases hk : k = node
  · simp [hk, FogNode.removeBuddies_removeBuddies]
  · by_cases ha : k = a
    · subst ha
      simp [hk, hdup]
    · simp [hk, ha]

theorem standing_forgetting (node : EntityId) (l : List EntityId) (k : EntityId) (m : FogNode) :
    ((forgetting node l).node k m).standing = m.standing := by
  unfold forgetting
  simp only
  split_ifs <;> rfl

theorem standing_separation (node : EntityId) (l : List EntityId) (k : EntityId) (m : FogNode) :
    ((separation node l).node k m).standing = m.standing := by
  unfold separation
  simp only
  split_ifs <;> rfl

end Touch

namespace Change

variable {r : Registry} {head node a : EntityId} {n x : FogNode} {members : List EntityId}

theorem forM_forget (hmem : ∀ m ∈ members, ∃ x, r.fogNode m = .ok x) :
    members.forM (fun m => updateNode m (·.removeBuddy node)) r =
      .ok () (r.touch (.forgetting node members)) := by
  have h := forM_touch members (fun m => updateNode m (·.removeBuddy node)) (fun _ => true)
    (fun q => SameStandings r q) (Touch.forgetting_nil node) (Touch.forgetting_cons node) ?_ ?_
    (SameStandings.refl r)
  · rwa [List.filter_eq_self.2 fun _ _ => rfl] at h
  · intro q hq m hm
    obtain ⟨x, hx⟩ := hmem m hm
    obtain ⟨y, hy, -⟩ := hq hx
    rw [updateNode_of_ok _ hy, if_pos rfl]
    congr 1
    refine Registry.touch_congr (fun k z _ => ?_) (fun _ _ _ => rfl) rfl rfl
    simp [Touch.onNode, Touch.forgetting, FogNode.removeBuddy_eq]
  · exact fun q hq a _ => hq.touch (Touch.standing_forgetting node [a])

theorem estrange_eq {owner : Option EntityId} (hn : r.fogNode node = .ok n)
    (ha : r.fogNode a = .ok x) (hne : a ≠ node) :
    estrange head node owner a r =
      .ok () (if !r.movedAlong head owner a then r.touch (.separation node [a]) else r) := by
  have hpart :
      (updateNode a (·.removeBuddy node) >>= fun _ => updateNode node (·.removeBuddy a)) r =
        .ok () (r.touch (.separation node [a])) := by
    rw [bind_of_ok (updateNode_of_ok _ ha), updateNode_of_ok _ (Registry.fogNode_touch hn),
      Registry.touch_touch]
    congr 1
    refine Registry.touch_congr (fun k m _ => ?_) (fun _ _ _ => rfl) rfl rfl
    simp only [Touch.andThen, Touch.onNode, Touch.separation, List.mem_singleton,
      FogNode.removeBuddy_eq]
    by_cases hk : k = node
    · subst hk
      simp [Ne.symm hne]
    · simp [hk]
  rw [Registry.movedAlong_of_ok ha]
  unfold estrange
  by_cases hc : owner.isSome && owner != some head
  · rw [if_pos hc, bind_of_ok (fogNode_of_ok ha), bind_of_ok (pure_run _ _), hc, Bool.true_and]
    cases x.owner? == owner with
    | true => rfl
    | false => exact hpart
  · rw [if_neg hc, bind_of_ok (pure_run _ _), Bool.eq_false_iff.2 hc]
    exact hpart

/-- Taking leave of the remaining members cuts the ties to all that have not moved along. -/
theorem forM_estrange {owner : Option EntityId} (hn : r.fogNode node = .ok n)
    (hmem : ∀ m ∈ members, ∃ x, r.fogNode m = .ok x) (hne : node ∉ members) :
    members.forM (estrange head node owner) r =
      .ok () (r.touch (.separation node (members.filter fun m => !r.movedAlong head owner m))) := by
  refine forM_touch _ _ _ (fun q => SameStandings r q) (Touch.separation_nil node)
    (Touch.separation_cons node) ?_ ?_ (SameStandings.refl r)
  · intro q hq m hm
    obtain ⟨x, hx⟩ := hmem m hm
    obtain ⟨y, hy, hxy⟩ := hq hx
    obtain ⟨k, hk, -⟩ := hq hn
    rw [estrange_eq hk hy (fun h => hne (h ▸ hm)), Registry.movedAlong_of_ok hx,
      Registry.movedAlong_of_ok hy]
    unfold FogNode.owner?
    rw [hxy]
  · exact fun q hq a _ => hq.touch (Touch.standing_separation node [a])

theorem filter_ne_eq_self (hgone : node ∉ members) : members.filter (· != node) = members :=
  List.filter_eq_self.2 fun m hm => by
    simpa using fun hmn : m = node => hgone (hmn ▸ hm)

/-- Who has moved along does not depend on the heads. -/
theorem movedAlong_onHead {owner : Option EntityId} {f : PuddleHead → PuddleHead} {id : EntityId}
    (ha : r.fogNode a = .ok x) :
    (r.touch (.onHead id f)).movedAlong head owner a = r.movedAlong head owner a := by
  rw [Registry.movedAlong_of_ok ha, Registry.movedAlong_of_ok (Registry.fogNode_touch ha)]
  rfl

/-- All remaining members are strangers to a node that has departed. -/
theorem strangers_of_departed {h : PuddleHead} (hgone : node ∉ h.members)
    (hd : n.isDeparted = true) : r.strangers head node h n = h.members := by
  have howner : n.owner? = none := by
    unfold FogNode.isDeparted at hd
    unfold FogNode.owner?
    rw [eq_of_beq hd]
    rfl
  unfold Registry.strangers
  rw [filter_ne_eq_self hgone]
  exact List.filter_eq_self.2 fun m _ => by simp [Registry.movedAlong, howner]

/-- The parent looks at the list of a head again after nodes have been changed. -/
theorem refreshParent_touch {h : PuddleHead} {t : Touch} (hh : r.puddleHead head = .ok h)
    (hparent : ∀ p, h.parent = some p → ∃ g, r.puddleHead p = .ok g)
    (ht : t.head = Touch.nothing.head) :
    refreshParent head (r.touch t) =
      .ok () ((r.touch t).touch (.copying head h.parent h.members)) := by
  have hth : (r.touch t).puddleHead head = .ok h := by
    refine (Registry.puddleHead_touch hh).trans ?_
    rw [ht]
    rfl
  refine refreshParent_of_ok hth fun p hp => ?_
  obtain ⟨g, hg⟩ := hparent p hp
  exact ⟨_, Registry.puddleHead_touch hg⟩

/-- The ties of a departed node to all remaining members are cut. -/
theorem cutTies_of_departed {h : PuddleHead} (hh : r.puddleHead head = .ok h)
    (hn : r.fogNode node = .ok n) (hgone : node ∉ h.members)
    (hmem : ∀ m ∈ h.members, ∃ x, r.fogNode m = .ok x)
    (hparent : ∀ p, h.parent = some p → ∃ g, r.puddleHead p = .ok g) (hd : n.isDeparted = true) :
    cutTies head node r = .ok () (r.touch (.parting head node h h.members)) := by
  have hh' := Registry.puddleHead_touch (t := .onHead head (·.teardownServices node)) hh
  have hn' := Registry.fogNode_touch (t := .onHead head (·.teardownServices node)) hn
  have hmem' : ∀ m ∈ h.members,
      ∃ x, (r.touch (.onHead head (·.teardownServices node))).fogNode m = .ok x := fun m hm =>
    ⟨_, Registry.fogNode_touch (hmem m hm).choose_spec⟩
  rw [show (Touch.onHead head (·.teardownServices node)).head head h = h.teardownServices node from
    if_pos rfl] at hh'
  unfold cutTies
  rw [bind_of_ok (updateHead_of_ok _ hh), bind_of_ok (fogNode_of_ok hn'),
    bind_of_ok (puddleHead_of_ok hh')]
  show (if n.isDeparted = true then _ else _ : Change Unit) _ = _
  rw [if_pos hd, show (h.teardownServices node).members = h.members from rfl,
    bind_of_ok (forM_forget hmem'), bind_of_ok (updateNode_of_ok _ (Registry.fogNode_touch hn')),
    Registry.touch_touch]
  refine (refreshParent_touch hh' (fun p hp => ?_) (by rfl)).trans ?_
  · exact ⟨_, Registry.puddleHead_touch (hparent p hp).choose_spec⟩
  simp only [Registry.touch_touch]
  congr 1
  refine Registry.touch_congr (fun k m hm => ?_) (fun k g hg => rfl) rfl rfl
  by_cases hk : k = node
  · subst hk
    obtain rfl : m = n := Except.ok.inj (hm.symm.trans hn)
    have hcut : m.cutOff h.members = { m with buddies := .empty } := if_pos hd
    have hkeep : (m.cutOff h.members).release head = { m with buddies := .empty } := by
      rw [hcut]
      refine if_neg ?_
      rw [eq_of_beq hd]
      simp
    simp [Touch.andThen, Touch.forgetting, Touch.onNode, Touch.onHead, Touch.copying,
      Touch.nothing, Touch.parting, hgone, hkeep]
  · simp [Touch.andThen, Touch.forgetting, Touch.onNode, Touch.onHead, Touch.copying,
      Touch.nothing, Touch.parting, hk]

/-- The ties of a node to the members that have not moved along with it are cut. -/
theorem cutTies_of_live {h : PuddleHead} (hh : r.puddleHead head = .ok h)
    (hn : r.fogNode node = .ok n) (hgone : node ∉ h.members)
    (hmem : ∀ m ∈ h.members, ∃ x, r.fogNode m = .ok x)
    (hparent : ∀ p, h.parent = some p → ∃ g, r.puddleHead p = .ok g) (hd : ¬ n.isDeparted = true) :
    cutTies head node r = .ok () (r.touch (.parting head node h (r.strangers head node h n))) := by
  have hh' := Registry.puddleHead_touch (t := .onHead head (·.teardownServices node)) hh
  have hn' := Registry.fogNode_touch (t := .onHead head (·.teardownServices node)) hn
  have hmem' : ∀ m ∈ h.members,
      ∃ x, (r.touch (.onHead head (·.teardownServices node))).fogNode m = .ok x := fun m hm =>
    ⟨_, Registry.fogNode_touch (hmem m hm).choose_spec⟩
  have hstrangers : r.strangers head node h n = h.members.filter fun m =>
      !(r.touch (.onHead head (·.teardownServices node))).movedAlong head n.owner? m := by
    unfold Registry.strangers
    rw [filter_ne_eq_self hgone]
    refine List.filter_congr fun m hm => ?_
    rw [movedAlong_onHead (hmem m hm).choose_spec]
  rw [show (Touch.onHead head (·.teardownServices node)).head head h = h.teardownServices node from
    if_pos rfl] at hh'
  unfold cutTies
  rw [bind_of_ok (updateHead_of_ok _ hh), bind_of_ok (fogNode_of_ok hn'),
    bind_of_ok (puddleHead_of_ok hh')]
  show (if n.isDeparted = true then _ else _ : Change Unit) _ = _
  rw [if_neg hd, show (h.teardownServices node).members = h.members from rfl,
    bind_of_ok (forM_estrange hn' hmem' hgone),
    bind_of_ok (updateNode_of_ok _ (Registry.fogNode_touch hn')), Registry.touch_touch, hstrangers]
  refine (refreshParent_touch hh' (fun p hp => ?_) (by rfl)).trans ?_
  · exact ⟨_, Registry.puddleHead_touch (hparent p hp).choose_spec⟩
  simp only [Registry.touch_touch]
  congr 1
  refine Registry.touch_congr (fun k m hm => ?_) (fun k g hg => rfl) rfl rfl
  by_cases hk : k = node
  · subst hk
    obtain rfl : m = n := Except.ok.inj (hm.symm.trans hn)
    simp [Touch.andThen, Touch.separation, Touch.onNode, Touch.onHead, Touch.copying,
      Touch.nothing, Touch.parting, FogNode.cutOff, hd]
  · simp [Touch.andThen, Touch.separation, Touch.onNode, Touch.onHead, Touch.copying,
      Touch.nothing, Touch.parting, hk]

/-- Cutting the ties of a node that its head has just struck off. -/
theorem cutTies_eq {h : PuddleHead} (hh : r.puddleHead head = .ok h) (hn : r.fogNode node = .ok n)
    (hgone : node ∉ h.members) (hmem : ∀ m ∈ h.members, ∃ x, r.fogNode m = .ok x)
    (hparent : ∀ p, h.parent = some p → ∃ g, r.puddleHead p = .ok g) :
    cutTies head node r = .ok () (r.touch (.parting head node h (r.strangers head node h n))) := by
  by_cases hd : n.isDeparted = true
  · rw [strangers_of_departed hgone hd]
    exact cutTies_of_departed hh hn hgone hmem hparent hd
  · exact cutTies_of_live hh hn hgone hmem hparent hd

/-- A listed node is struck off. -/
theorem leave_of_listed {h : PuddleHead} (hh : r.puddleHead head = .ok h)
    (hn : r.fogNode node = .ok n) (hlisted : node ∈ h.members)
    (hmem : ∀ m ∈ h.members, ∃ x, r.fogNode m = .ok x)
    (hparent : ∀ p, h.parent = some p → ∃ g, r.puddleHead p = .ok g) :
    leave head node r =
      .ok true (r.touch (.dismissal head node h (r.strangers head node h n))) := by
  have hmember : h.isMember node = true := by
    unfold PuddleHead.isMember
    simpa using hlisted
  let q := r.touch (.onHead head (·.removeMember node))
  have hqh : q.puddleHead head = .ok (h.removeMember node) := by
    refine (Registry.puddleHead_touch hh).trans ?_
    simp [Touch.onHead]
  have hqn : q.fogNode node = .ok n := Registry.fogNode_touch hn
  have hqmem : ∀ m ∈ (h.removeMember node).members, ∃ x, q.fogNode m = .ok x := fun m hm =>
    ⟨_, Registry.fogNode_touch (hmem m (List.mem_filter.1 hm).1).choose_spec⟩
  have hqparent : ∀ p, (h.removeMember node).parent = some p → ∃ g, q.puddleHead p = .ok g :=
    fun p hp => ⟨_, Registry.puddleHead_touch (hparent p hp).choose_spec⟩
  have hgone : node ∉ (h.removeMember node).members := by simp [PuddleHead.removeMember]
  have hS : q.strangers head node (h.removeMember node) n = r.strangers head node h n := by
    unfold Registry.strangers
    have hremain : (h.removeMember node).members.filter (· != node) =
        h.members.filter (· != node) := by
      simp [PuddleHead.removeMember, List.filter_filter]
    rw [hremain]
    refine List.filter_congr fun m hm => ?_
    rw [movedAlong_onHead (hmem m (List.mem_filter.1 hm).1).choose_spec]
  unfold leave
  rw [bind_of_ok (puddleHead_of_ok hh), bind_of_ok (updateHead_of_ok _ hh)]
  show (if h.isMember node = true then _ else _ : Change Bool) q = _
  rw [if_pos hmember, bind_of_ok (cutTies_eq hqh hqn hgone hqmem hqparent)]
  show (updateNode node (settleLeave head) >>= fun _ => pure (h.isMember node)) _ = _
  rw [bind_of_ok (updateNode_of_ok _ (Registry.fogNode_touch hqn)), hS, hmember, pure_run]
  simp only [q, Registry.touch_touch]
  congr 1
  refine Registry.touch_congr (fun k m hm => ?_) (fun k g hg => ?_) rfl rfl
  · by_cases hk : k = node
    · simp [Touch.andThen, Touch.onHead, Touch.parting, Touch.onNode, Touch.dismissal,
        Touch.nothing, hk]
    · simp [Touch.andThen, Touch.onHead, Touch.parting, Touch.onNode, Touch.dismissal,
        Touch.nothing, hk]
  · by_cases hk : k = head
    · simp [Touch.andThen, Touch.onHead, Touch.parting, Touch.onNode, Touch.dismissal,
        Touch.nothing, Touch.relisting, PuddleHead.removeMember, hk]
    · simp [Touch.andThen, Touch.onHead, Touch.parting, Touch.onNode, Touch.dismissal,
        Touch.nothing, Touch.relisting, PuddleHead.removeMember, hk]

/-- Striking off a node of which a head knows nothing changes nothing. -/
theorem touch_removeMember_of_unlisted {h : PuddleHead} (hh : r.puddleHead head = .ok h)
    (hlisted : node ∉ h.members) (hoffer : h.memberCharacteristics.get? node = none) :
    r.touch (.onHead head (·.removeMember node)) = r := by
  have hsame : h.removeMember node = h := by
    have hmembers : h.members.filter (· != node) = h.members :=
      List.filter_eq_self.2 fun m hm => by
        simpa using fun hmn : m = node => hlisted (hmn ▸ hm)
    unfold PuddleHead.removeMember
    rw [hmembers, SortedMap.erase_eq_self hoffer]
  refine Eq.trans
    (Registry.touch_congr (t := .nothing) (fun _ _ _ => rfl) (fun k g hg => ?_) rfl rfl)
    (Registry.touch_nothing r)
  by_cases hk : k = head
  · subst hk
    obtain rfl : g = h := Except.ok.inj (hg.symm.trans hh)
    simp [Touch.onHead, Touch.nothing, hsame]
  · simp [Touch.onHead, Touch.nothing, hk]

/-- A node that is not listed only has its change finished. -/
theorem leave_of_unlisted {h : PuddleHead} (hh : r.puddleHead head = .ok h)
    (hn : r.fogNode node = .ok n) (hlisted : node ∉ h.members)
    (hoffer : h.memberCharacteristics.get? node = none) :
    leave head node r = .ok false (r.touch (.onNode node (settleLeave head))) := by
  have hmember : h.isMember node = false := by
    unfold PuddleHead.isMember
    simpa using hlisted
  unfold leave
  rw [bind_of_ok (puddleHead_of_ok hh), bind_of_ok (updateHead_of_ok _ hh),
    touch_removeMember_of_unlisted hh hlisted hoffer]
  show (if h.isMember node = true then _ else _ : Change Bool) r = _
  rw [if_neg (by simp [hmember])]
  show (updateNode node (settleLeave head) >>= fun _ => pure (h.isMember node)) r = _
  rw [bind_of_ok (updateNode_of_ok _ hn), hmember, pure_run]

theorem leave_of_unknown {h : PuddleHead} {fault : Fault} (hh : r.puddleHead head = .ok h)
    (hn : r.fogNode node = .error fault) (hlisted : node ∉ h.members)
    (hoffer : h.memberCharacteristics.get? node = none) :
    leave head node r = .error fault r := by
  have hmember : h.isMember node = false := by
    unfold PuddleHead.isMember
    simpa using hlisted
  unfold leave
  rw [bind_of_ok (puddleHead_of_ok hh), bind_of_ok (updateHead_of_ok _ hh),
    touch_removeMember_of_unlisted hh hlisted hoffer]
  show (if h.isMember node = true then _ else _ : Change Bool) r = _
  rw [if_neg (by simp [hmember])]
  show (updateNode node (settleLeave head) >>= fun _ => pure (h.isMember node)) r = _
  rw [bind_of_error (updateNode_of_error _ hn)]

end Change

end FogNet
