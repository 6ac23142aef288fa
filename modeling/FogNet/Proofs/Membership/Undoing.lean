import FogNet.Proofs.Membership.Admission
import FogNet.Proofs.Membership.Dismissal

/-!
# Leaving undoes joining

A join and a leave go through the members of a head by different rules: a join passes over those
that have departed, a leave over those that have moved along. Both come down to one touch of the
registry, so whether the second undoes the first is decided record by record. To a newcomer, of whom
neither the head nor its members know anything yet, nothing has happened then
(`Registry.Newcomer.leave_of_join`).
-/

namespace FogNet

/-! ## Records -/

/-- Taking out at least the buddies that have been added undoes adding them, if all were new. -/
theorem FogNode.removeBuddies_addBuddies {n : FogNode} {l m : List EntityId} (hlm : ∀ a ∈ l, a ∈ m)
    (hnew : ∀ a ∈ m, a ∉ n.buddies) : (n.addBuddies l).removeBuddies m = n := by
  refine ext_buddies rfl fun k => ?_
  rw [mem_removeBuddies, mem_addBuddies]
  constructor
  · rintro ⟨hm, ⟨hl, -⟩ | hk⟩
    · exact absurd (hlm k hl) hm
    · exact hk
  · exact fun hk => ⟨fun hm => hnew k hm hk, .inr hk⟩

namespace PuddleHead

variable {h g : PuddleHead} {head node : EntityId} {offer : Characteristics}

/-- Striking a node off undoes listing it. -/
theorem removeMember_addMember (hnew : node ∉ h.members)
    (hoffer : h.memberCharacteristics.get? node = none) :
    (h.addMember node offer).removeMember node = h := by
  have hmember : h.isMember node = false := by
    unfold isMember
    simpa using hnew
  have hmembers : (h.members ++ [node]).filter (· != node) = h.members := by
    rw [List.filter_append, Change.filter_ne_eq_self hnew]
    simp
  unfold addMember removeMember
  rw [hmember]
  simp only [Bool.false_eq_true, if_false, hmembers, SortedMap.erase_insert hoffer]

/-- A head without services for a node has none to take down. -/
theorem teardownServices_eq_self (hservices : h.runningServices.get? node = none) :
    h.teardownServices node = h := by
  unfold teardownServices
  rw [SortedMap.erase_eq_self hservices]

/-- Renewing a copy that was up to date undoes renewing it before. -/
theorem refreshChild_refreshChild {l : List EntityId} (hl : g.childPuddles.get? head = some l)
    (m : List EntityId) : (g.refreshChild head m).refreshChild head l = g := by
  unfold refreshChild
  simp only [SortedMap.modify_modify hl]

end PuddleHead

namespace Registry

/-- A node in no puddle, of which a head and its members know nothing. -/
structure Newcomer (r : Registry) (head node : EntityId) (h : PuddleHead) (n : FogNode) :
    Prop where
  /-- The record of the head. -/
  host : r.puddleHead head = .ok h
  /-- The record of the node. -/
  guest : r.fogNode node = .ok n
  /-- The head lists only nodes. -/
  known : ∀ m ∈ h.members, ∃ x, r.fogNode m = .ok x
  /-- Its parent has an up-to-date copy of its list. -/
  copied : ∀ p, h.parent = some p →
    ∃ g, r.puddleHead p = .ok g ∧ g.childPuddles.get? head = some h.members
  /-- The node is in no puddle. -/
  standing : n.standing = .unassigned
  /-- It is in the middle of no change. -/
  pending : n.pending = none
  /-- The head does not list it. -/
  unlisted : node ∉ h.members
  /-- The head does not know what it offers. -/
  offer : h.memberCharacteristics.get? node = none
  /-- No module of the head runs on it. -/
  services : h.runningServices.get? node = none
  /-- It is a buddy of no member, and no member is one of its. -/
  unmet : ∀ m ∈ h.members, ¬ r.Befriends m node ∧ ¬ r.Befriends node m

variable {r : Registry} {head node k : EntityId} {h g : PuddleHead} {n m : FogNode}

/-- All remaining members are strangers to a node that its head owns. -/
theorem strangers_of_owned (ho : n.standing = .owned head) :
    r.strangers head node h n = h.members.filter (· != node) := by
  have howner : n.owner? = some head := by
    unfold FogNode.owner?
    rw [ho]
    rfl
  unfold strangers movedAlong
  rw [howner]
  exact List.filter_eq_self.2 fun m _ => by simp

namespace Newcomer

theorem isDeparted (hr : r.Newcomer head node h n) : n.isDeparted = false := by
  unfold FogNode.isDeparted
  rw [hr.standing]
  rfl

theorem parent (hr : r.Newcomer head node h n) (p : EntityId) (hp : h.parent = some p) :
    ∃ g, r.puddleHead p = .ok g := by
  obtain ⟨g, hg, -⟩ := hr.copied p hp
  exact ⟨g, hg⟩

/-- A newcomer that is owned, released and cut off from all members is as it was. -/
theorem restore_node (hr : r.Newcomer head node h n) :
    Change.settleLeave head (({ n.addBuddies (r.living h.members) with
      standing := .owned head }.cutOff h.members).release head) = n := by
  have hcut : { n.addBuddies (r.living h.members) with standing := .owned head }.cutOff h.members =
      { (n.addBuddies (r.living h.members)).removeBuddies h.members with
        standing := .owned head } := rfl
  have hbuddies : (n.addBuddies (r.living h.members)).removeBuddies h.members = n :=
    FogNode.removeBuddies_addBuddies (fun a ha => (List.mem_filter.1 ha).1) fun a ha hb =>
      (hr.unmet a ha).2 ⟨n, hr.guest, hb⟩
  have hrelease : { n with standing := .owned head }.release head = n := by
    unfold FogNode.release
    rw [if_pos rfl]
    show { n with standing := .unassigned } = n
    rw [← hr.standing]
  rw [hcut, hbuddies, hrelease]
  unfold Change.settleLeave
  rw [hr.pending]

/-- A member that was or was not told of a newcomer is as it was once it has forgotten it. -/
theorem restore_member (hr : r.Newcomer head node h n) (hk : k ∈ h.members)
    (hm : r.fogNode k = .ok m) :
    (if k ∈ r.living h.members then m.addBuddies [node] else m).removeBuddies [node] = m := by
  have hnew : ∀ a ∈ [node], a ∉ m.buddies := fun a ha hb => by
    rw [List.mem_singleton.1 ha] at hb
    exact (hr.unmet k hk).1 ⟨m, hm, hb⟩
  split_ifs
  · exact FogNode.removeBuddies_addBuddies (fun _ ha => ha) hnew
  · exact FogNode.removeBuddies_addBuddies (l := []) nofun hnew

/-- The head and its parent, which may be the head itself, have their lists back. -/
theorem restore_head (hr : r.Newcomer head node h n) (hg : r.puddleHead k = .ok g) :
    Touch.relisting head h.parent (fun g => (g.removeMember node).teardownServices node) h.members k
      (Touch.relisting head h.parent (·.addMember node n.characteristics) (h.members ++ [node]) k
        g) = g := by
  have hparent : h.parent = some k → g.childPuddles.get? head = some h.members := fun hp => by
    obtain ⟨f, hf, hcopy⟩ := hr.copied k hp
    rwa [puddleHead_inj hf hg] at hcopy
  have hlist : k = head → ((g.addMember node n.characteristics).removeMember node).teardownServices
      node = g := by
    rintro rfl
    obtain rfl := puddleHead_inj hr.host hg
    rw [PuddleHead.removeMember_addMember hr.unlisted hr.offer,
      PuddleHead.teardownServices_eq_self hr.services]
  have hcommute : ∀ f : PuddleHead,
      ((f.refreshChild head (h.members ++ [node])).removeMember node).teardownServices node =
        ((f.removeMember node).teardownServices node).refreshChild head (h.members ++ [node]) :=
    fun _ => rfl
  unfold Touch.relisting
  simp only
  by_cases hk : k = head
  · rw [if_pos hk, if_pos hk]
    by_cases hp : h.parent = some k
    · rw [if_pos hp, if_pos hp, hcommute, hlist hk,
        PuddleHead.refreshChild_refreshChild (hparent hp)]
    · rw [if_neg hp, if_neg hp, hlist hk]
  · rw [if_neg hk, if_neg hk]
    by_cases hp : h.parent = some k
    · rw [if_pos hp, if_pos hp, PuddleHead.refreshChild_refreshChild (hparent hp)]
    · rw [if_neg hp, if_neg hp]

/-- The records of a newcomer and its head when it has joined. -/
theorem admitted (hr : r.Newcomer head node h n) :
    ∃ g m, (r.touch (r.admitting head node h n)).puddleHead head = .ok g ∧
      (r.touch (r.admitting head node h n)).fogNode node = .ok m ∧ g.parent = h.parent ∧
      g.members = h.members ++ [node] ∧ m.standing = .owned head := by
  refine ⟨_, _, puddleHead_touch hr.host, fogNode_touch hr.guest, ?_, ?_, ?_⟩
  · exact (Touch.Faithful.admission.head head h).parent
  · have hmember : h.isMember node = false := by simp [PuddleHead.isMember, hr.unlisted]
    rw [admitting, Touch.admission, members_relisting, if_pos rfl, PuddleHead.addMember, hmember]
    rfl
  · rw [standing_admitting, if_pos rfl]

/-- Striking a newcomer off undoes having taken it in. -/
theorem touch_dismissal (hr : r.Newcomer head node h n) (hparent : g.parent = h.parent)
    (hrest : g.members.filter (· != node) = h.members) :
    (r.touch (r.admitting head node h n)).touch (.dismissal head node g h.members) = r := by
  rw [touch_touch]
  refine Eq.trans (touch_congr (t := .nothing) (fun k x hx => ?_) (fun k f hf => ?_) rfl rfl)
    (touch_nothing r)
  · show (Touch.dismissal head node g h.members).node k
      ((Touch.admission head node h n.characteristics (r.living h.members)).node k x) = x
    unfold Touch.dismissal Touch.admission
    simp only
    by_cases hk : k = node
    · subst hk
      obtain rfl := fogNode_inj hr.guest hx
      rw [if_pos rfl, if_pos rfl, hr.restore_node]
    · rw [if_neg hk, if_neg hk]
      by_cases hin : k ∈ h.members
      · rw [if_pos hin, hr.restore_member hin hx]
      · have hspared : k ∉ r.living h.members := fun hl => hin (List.mem_filter.1 hl).1
        rw [if_neg hin, if_neg hspared]
  · show (Touch.dismissal head node g h.members).head k
      ((Touch.admission head node h n.characteristics (r.living h.members)).head k f) = f
    unfold Touch.dismissal Touch.admission
    rw [hparent, hrest]
    exact hr.restore_head hf

/-- A newcomer that joins a head can leave it, and then the registry is what it was. -/
theorem leave_of_join (hr : r.Newcomer head node h n) :
    ∃ q, Change.join head node r = .ok true q ∧ Change.leave head node q = .ok true r := by
  have hjoin : Change.join head node r = .ok true (r.touch (r.admitting head node h n)) :=
    Change.join_of_fresh hr.host hr.guest hr.unlisted hr.isDeparted hr.known hr.parent
  refine ⟨_, hjoin, ?_⟩
  obtain ⟨g, m, hg, hm, hparent, hmembers, howned⟩ := hr.admitted
  have hrest : g.members.filter (· != node) = h.members := by
    rw [hmembers, List.filter_append, Change.filter_ne_eq_self hr.unlisted]
    simp
  have hknown : ∀ k ∈ g.members, ∃ x, (r.touch (r.admitting head node h n)).fogNode k = .ok x := by
    intro k hk
    rw [hmembers] at hk
    rcases List.mem_append.1 hk with hk | hk
    · exact ⟨_, fogNode_touch (hr.known k hk).choose_spec⟩
    · exact ⟨m, List.mem_singleton.1 hk ▸ hm⟩
  have hlisted : node ∈ g.members := hmembers ▸ List.mem_append_right _ List.mem_cons_self
  have hup : ∀ p, g.parent = some p →
      ∃ f, (r.touch (r.admitting head node h n)).puddleHead p = .ok f := fun p hp =>
    ⟨_, puddleHead_touch (hr.parent p (hparent ▸ hp)).choose_spec⟩
  rw [Change.leave_of_listed hg hm hlisted hknown hup, strangers_of_owned howned, hrest,
    hr.touch_dismissal hparent hrest]

end Newcomer

namespace Visit

/-- A node of a puddle, with its buddies there. -/
def resident (id : EntityId) (buddies : List EntityId) : FogNode :=
  ((FogNode.create id "resident" 1 (.stationary ⟨0, 0⟩ ⟨0, 0, 1, 1⟩) .none).addBuddies
    buddies).setOwner 2

/-- A node in no puddle, with a buddy somewhere else. -/
def guest : FogNode :=
  (FogNode.create 6 "guest" 1 (.stationary ⟨0, 0⟩ ⟨0, 0, 1, 1⟩) .none).addBuddies [7]

/-- A head with three members, one of which has departed. -/
def host : PuddleHead :=
  ((((PuddleHead.create 2 "host" 1 (.rectangle 0 0 1 1) ⟨0, 0⟩).addMember 3 .none).addMember 4
    .none).addMember 5 .none).setParent 1

/-- The head above it. -/
def above : PuddleHead :=
  (PuddleHead.create 1 "above" 0 (.rectangle 0 0 1 1) ⟨0, 0⟩).addChild 2 [3, 4, 5]

/-- Two heads, the members of the lower one, and a guest. -/
def registry : Registry :=
  (((((Registry.empty.put 1 (.puddleHead above)).put 2 (.puddleHead host)).put 3
    (.fogNode (resident 3 []).depart)).put 4 (.fogNode (resident 4 [5]))).put 5
    (.fogNode (resident 5 [4]))).put 6 (.fogNode guest)

theorem newcomer : registry.Newcomer 2 6 host guest where
  host := rfl
  guest := rfl
  known := by
    simp only [show host.members = [3, 4, 5] from rfl, List.forall_mem_cons]
    exact ⟨⟨_, rfl⟩, ⟨_, rfl⟩, ⟨_, rfl⟩, nofun⟩
  copied p hp := by
    obtain rfl : 1 = p := Option.some.inj hp
    exact ⟨above, rfl, rfl⟩
  standing := rfl
  pending := rfl
  unlisted := by decide
  offer := rfl
  services := rfl
  unmet := by
    simp only [show host.members = [3, 4, 5] from rfl, List.forall_mem_cons,
      befriends_iff (show registry.fogNode 3 = .ok _ from rfl),
      befriends_iff (show registry.fogNode 4 = .ok _ from rfl),
      befriends_iff (show registry.fogNode 5 = .ok _ from rfl),
      befriends_iff (show registry.fogNode 6 = .ok _ from rfl)]
    exact ⟨by decide, by decide, by decide, nofun⟩

/-- The guest can join and leave, and then nothing has happened. -/
theorem leave_of_join_guest :
    registry.Newcomer 2 6 host guest ∧
      ∃ q, Change.join 2 6 registry = .ok true q ∧ Change.leave 2 6 q = .ok true registry :=
  ⟨newcomer, Newcomer.leave_of_join newcomer⟩

-- In between it is a buddy of the members that are there.
example : ∃ q n, Change.join 2 6 registry = .ok true q ∧ q.fogNode 6 = .ok n ∧
    n.buddies.toList = [4, 5, 7] := ⟨_, _, rfl, rfl, rfl⟩

end Visit

end Registry

end FogNet
