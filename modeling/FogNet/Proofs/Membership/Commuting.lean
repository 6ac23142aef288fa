import FogNet.Proofs.Membership.Admission

/-!
# Joins into different puddles commute

A join reads the list of its head, who its parent is and which members have departed. A join of
another node into another puddle changes none of these, so the first finds the same before and after
it (`Registry.Unnoticed.joins_iff`). Both may write to the buddies of one node and to the copies that
one parent keeps; what they write there adds up to the same in either order
(`Touch.admission_comm`). So two joins that succeed in one order succeed in the other, with the same
answers and in the same registry (`Change.joins_commute`), whatever the registry is like.
-/

namespace FogNet

namespace FogNode

/-- The record of a node with another standing. -/
def withStanding (n : FogNode) (s : Standing) : FogNode := { n with standing := s }

end FogNode

namespace PuddleHead

variable {h : PuddleHead} {a b node : EntityId} {offer : Characteristics} {l m : List EntityId}

/-- Renewing the copies of two different children commutes. -/
theorem refreshChild_comm (hab : a ≠ b) :
    (h.refreshChild a l).refreshChild b m = (h.refreshChild b m).refreshChild a l := by
  unfold refreshChild
  rw [SortedMap.modify_comm hab]

theorem parent_addMember (h : PuddleHead) (node : EntityId) (offer : Characteristics) :
    (h.addMember node offer).parent = h.parent := by
  unfold addMember
  split_ifs <;> rfl

/-- Renewing a copy does not interfere with listing a node. -/
theorem addMember_refreshChild :
    (h.refreshChild a l).addMember node offer = (h.addMember node offer).refreshChild a l := by
  unfold addMember
  show (if h.isMember node = true then _ else _) = _
  split_ifs <;> rfl

end PuddleHead

namespace Touch

variable {head other node guest : EntityId} {h g : PuddleHead} {offer gift : Characteristics}
  {friends peers : List EntityId}

/-- The buddies that a node gets when another one meets some friends. -/
def acquaintances (node : EntityId) (friends : List EntityId) (k : EntityId) : List EntityId :=
  if k = node then friends else if k ∈ friends then [node] else []

/-- An admission adds buddies to each node and gives one of them an owner. -/
theorem node_admission (k : EntityId) (m : FogNode) :
    (admission head node h offer friends).node k m =
      (m.addBuddies (acquaintances node friends k)).withStanding
        (if k = node then .owned head else m.standing) := by
  unfold admission acquaintances
  simp only
  split_ifs <;> rfl

/-- Two heads get what they have listed copied by their parents, in either order. -/
theorem relisting_comm {p q : Option EntityId} {l m : List EntityId} (hne : head ≠ other)
    (k : EntityId) (x : PuddleHead) :
    relisting other q (·.addMember guest gift) m k
        (relisting head p (·.addMember node offer) l k x) =
      relisting head p (·.addMember node offer) l k
        (relisting other q (·.addMember guest gift) m k x) := by
  have hcopies : ∀ y : PuddleHead, (y.refreshChild head l).refreshChild other m =
      (y.refreshChild other m).refreshChild head l := fun _ => PuddleHead.refreshChild_comm hne
  unfold relisting
  simp only
  by_cases hk : k = head
  · have ho : k ≠ other := fun ho => hne (hk.symm.trans ho)
    rw [if_pos hk, if_neg ho, if_neg ho, if_pos hk]
    split_ifs <;> simp only [PuddleHead.addMember_refreshChild, hcopies]
  · rw [if_neg hk, if_neg hk]
    split_ifs <;> simp only [PuddleHead.addMember_refreshChild, hcopies]

/-- Admissions of different nodes by different heads commute. -/
theorem admission_comm (hheads : head ≠ other) (hnodes : node ≠ guest) :
    (admission head node h offer friends).andThen (admission other guest g gift peers) =
      (admission other guest g gift peers).andThen (admission head node h offer friends) := by
  refine Touch.ext (funext fun k => funext fun m => ?_) (funext fun k => funext fun x => ?_) rfl rfl
  · have hstanding : (if k = guest then .owned other else if k = node then .owned head
        else m.standing : Standing) =
        if k = node then .owned head else if k = guest then .owned other else m.standing := by
      by_cases hk : k = node
      · have hg : k ≠ guest := fun hg => hnodes (hk.symm.trans hg)
        rw [if_neg hg, if_pos hk, if_pos hk]
      · rw [if_neg hk, if_neg hk]
    simp only [andThen, node_admission]
    -- buddies and standing are fields of their own, so both can be given one after the other
    show ((m.addBuddies _).addBuddies _).withStanding _ =
      ((m.addBuddies _).addBuddies _).withStanding _
    rw [FogNode.addBuddies_comm]
    exact congrArg _ hstanding
  · exact relisting_comm hheads k x

end Touch

/-! ## What a join comes down to -/

namespace Registry

variable {r : Registry} {head other node guest k : EntityId} {h : PuddleHead} {n : FogNode}
  {a b : Bool} {s t : Touch}

/-- What a join that succeeds answers, and the change of all records that it amounts to. -/
inductive Joins (r : Registry) (head node : EntityId) : Bool → Touch → Prop where
  /-- The node is listed already. -/
  | listed {h : PuddleHead} (host : r.puddleHead head = .ok h) (old : node ∈ h.members) :
      r.Joins head node false .nothing
  /-- The node has departed. -/
  | gone {h : PuddleHead} {n : FogNode} (host : r.puddleHead head = .ok h)
      (guest : r.fogNode node = .ok n) (departed : n.isDeparted = true) :
      r.Joins head node false .nothing
  /-- The head takes the node in. -/
  | fresh {h : PuddleHead} {n : FogNode} (host : r.puddleHead head = .ok h)
      (guest : r.fogNode node = .ok n) (new : node ∉ h.members) (present : n.isDeparted = false)
      (known : ∀ m ∈ h.members, ∃ x, r.fogNode m = .ok x)
      (parent : ∀ p, h.parent = some p → ∃ g, r.puddleHead p = .ok g) :
      r.Joins head node true (r.admitting head node h n)

/-- A touch that a join into a puddle does not notice. -/
structure Unnoticed (r : Registry) (head : EntityId) (t : Touch) : Prop where
  /-- It changes no more than reactions do. -/
  faithful : t.Faithful
  /-- It keeps the list of the head. -/
  members : ∀ h, r.puddleHead head = .ok h → (t.head head h).members = h.members
  /-- It lets nobody depart and brings nobody back. -/
  departed : ∀ k n, r.fogNode k = .ok n → (t.node k n).isDeparted = n.isDeparted

namespace Unnoticed

theorem nothing : r.Unnoticed head .nothing := ⟨.nothing, fun _ _ => rfl, fun _ _ _ => rfl⟩

theorem isDepartedNode (ht : r.Unnoticed head t) (k : EntityId) :
    (r.touch t).isDepartedNode k = r.isDepartedNode k := by
  cases hk : r.fogNode k with
  | ok n =>
    rw [isDepartedNode_of_ok hk, isDepartedNode_of_ok (fogNode_touch hk), ht.departed k n hk]
  | error fault =>
    unfold Registry.isDepartedNode
    rw [hk]
    cases hk' : (r.touch t).fogNode k with
    | ok m =>
      obtain ⟨n, hn, -⟩ := fogNode_touch_iff.1 hk'
      rw [hk] at hn
      cases hn
    | error fault => rfl

/-- After an unnoticed touch, a node is taken in by the same touch as before. -/
theorem admitting_eq (ht : r.Unnoticed head t) (hh : r.puddleHead head = .ok h) :
    (r.touch t).admitting head node (t.head head h) (t.node node n) = r.admitting head node h n := by
  have hliving : ∀ l, (r.touch t).living l = r.living l := fun l => by
    unfold living
    simp only [ht.isDepartedNode]
  unfold admitting Touch.admission
  rw [ht.members h hh, (ht.faithful.head head h).parent, (ht.faithful.node node n).characteristics,
    hliving]

/-- A join comes down to the same before and after an unnoticed touch. -/
theorem joins_iff (ht : r.Unnoticed head t) :
    (r.touch t).Joins head node a s ↔ r.Joins head node a s := by
  constructor
  · intro hj
    cases hj with
    | listed host old =>
      obtain ⟨h, hh, rfl⟩ := puddleHead_touch_iff.1 host
      exact .listed hh (ht.members h hh ▸ old)
    | gone host guest departed =>
      obtain ⟨h, hh, rfl⟩ := puddleHead_touch_iff.1 host
      obtain ⟨n, hn, rfl⟩ := fogNode_touch_iff.1 guest
      exact .gone hh hn (ht.departed node n hn ▸ departed)
    | fresh host guest new present known parent =>
      obtain ⟨h, hh, rfl⟩ := puddleHead_touch_iff.1 host
      obtain ⟨n, hn, rfl⟩ := fogNode_touch_iff.1 guest
      rw [ht.members h hh] at new known
      rw [(ht.faithful.head head h).parent] at parent
      rw [ht.departed node n hn] at present
      rw [ht.admitting_eq hh]
      refine .fresh hh hn new present (fun m hm => ?_) fun p hp => ?_
      · obtain ⟨_, hx⟩ := known m hm
        obtain ⟨x, hx, -⟩ := fogNode_touch_iff.1 hx
        exact ⟨x, hx⟩
      · obtain ⟨_, hg⟩ := parent p hp
        obtain ⟨g, hg, -⟩ := puddleHead_touch_iff.1 hg
        exact ⟨g, hg⟩
  · intro hj
    cases hj with
    | listed host old =>
      exact .listed (puddleHead_touch host) ((ht.members _ host).symm ▸ old)
    | gone host guest departed =>
      exact .gone (puddleHead_touch host) (fogNode_touch guest)
        ((ht.departed _ _ guest).trans departed)
    | fresh host guest new present known parent =>
      rw [← ht.admitting_eq host]
      refine .fresh (puddleHead_touch host) (fogNode_touch guest) ?_ ?_ (fun m hm => ?_) fun p hp => ?_
      · rwa [ht.members _ host]
      · exact (ht.departed _ _ guest).trans present
      · rw [ht.members _ host] at hm
        obtain ⟨x, hx⟩ := known m hm
        exact ⟨_, fogNode_touch hx⟩
      · rw [(ht.faithful.head _ _).parent] at hp
        obtain ⟨g, hg⟩ := parent p hp
        exact ⟨_, puddleHead_touch hg⟩

end Unnoticed

namespace Joins

/-- A join is not noticed by a join into another puddle. -/
theorem unnoticed (ht : r.Joins head node a t) (hne : other ≠ head) : r.Unnoticed other t := by
  cases ht with
  | listed host old => exact .nothing
  | gone host guest departed => exact .nothing
  | @fresh h n host guest new present known parent =>
    refine ⟨.admission, fun g _ => ?_, fun k m hm => ?_⟩
    · rw [admitting, Touch.admission, members_relisting, if_neg hne]
    · unfold FogNode.isDeparted
      rw [standing_admitting]
      split_ifs with hk
      · subst hk
        rw [fogNode_inj hm guest]
        exact present.symm
      · rfl

/-- Joins of different nodes into different puddles write the same in either order. -/
theorem andThen_comm (hs : r.Joins head node a s) (ht : r.Joins other guest b t)
    (hheads : head ≠ other) (hnodes : node ≠ guest) : s.andThen t = t.andThen s := by
  cases hs with
  | listed => rfl
  | gone => rfl
  | fresh =>
    cases ht with
    | listed => rfl
    | gone => rfl
    | fresh => exact Touch.admission_comm hheads hnodes

end Joins

end Registry

namespace Change

open Registry

variable {r q s : Registry} {head other node guest m : EntityId} {h : PuddleHead} {n x : FogNode}
  {members : List EntityId} {a b : Bool} {u : Unit}

/-- All nodes have been found if a node has met them one after the other. -/
theorem known_of_forM_befriend (hn : r.fogNode node = .ok n) (hne : node ∉ members)
    (hloop : members.forM (befriend node) r = .ok u q) : ∀ m ∈ members, ∃ x, r.fogNode m = .ok x := by
  induction members generalizing r n with
  | nil => nofun
  | cons m rest ih =>
    obtain ⟨_, p, hfirst, hrest⟩ := forM_cons_eq_ok_iff.1 hloop
    cases hm : r.fogNode m with
    | error fault =>
      unfold befriend at hfirst
      rw [bind_of_error (fogNode_of_error hm)] at hfirst
      cases hfirst
    | ok x =>
      have hmn : m ≠ node := fun he => hne (he ▸ List.mem_cons_self)
      rw [befriend_eq hn hm hmn] at hfirst
      -- whether or not the node has met this one, the rest is looked up among the same nodes
      obtain ⟨t, rfl⟩ : ∃ t, p = r.touch t := by
        split_ifs at hfirst
        · exact ⟨_, by cases hfirst; rfl⟩
        · exact ⟨.nothing, by cases hfirst; exact (touch_nothing r).symm⟩
      have hrest := ih (fogNode_touch hn) (fun hin => hne (List.mem_cons_of_mem m hin)) hrest
      refine List.forall_mem_cons.2 ⟨⟨x, hm⟩, fun k hk => ?_⟩
      obtain ⟨_, hy⟩ := hrest k hk
      obtain ⟨y, hy, -⟩ := fogNode_touch_iff.1 hy
      exact ⟨y, hy⟩

/-- A head's parent has been found if it has renewed its copy. -/
theorem parent_of_refreshParent (hh : r.puddleHead head = .ok h)
    (hrun : refreshParent head r = .ok u q) :
    ∀ p, h.parent = some p → ∃ g, r.puddleHead p = .ok g := by
  intro p hp
  unfold refreshParent at hrun
  rw [bind_of_ok (puddleHead_of_ok hh), hp] at hrun
  cases hg : r.puddleHead p with
  | ok g => exact ⟨g, rfl⟩
  | error fault =>
    have hfail : updateHead p (·.refreshChild head h.members) r = .error fault r :=
      updateHead_of_error _ hg
    rw [show updateHead p (·.refreshChild head h.members) r = .ok u q from hrun] at hfail
    cases hfail

/-- All members and the parent have been found if a head has taken a node in. -/
theorem known_of_join (hh : r.puddleHead head = .ok h) (hn : r.fogNode node = .ok n)
    (hnew : node ∉ h.members) (hlive : n.isDeparted = false) (hj : join head node r = .ok a q) :
    (∀ m ∈ h.members, ∃ x, r.fogNode m = .ok x) ∧
      ∀ p, h.parent = some p → ∃ g, r.puddleHead p = .ok g := by
  unfold join at hj
  rw [bind_of_ok (puddleHead_of_ok hh), if_neg (by simpa [PuddleHead.isMember] using hnew),
    bind_of_ok (fogNode_of_ok hn), if_neg (by simp [hlive])] at hj
  obtain ⟨u, _, hloop, hj⟩ := bind_eq_ok_iff.1 hj
  have hknown := known_of_forM_befriend hn hnew hloop
  refine ⟨hknown, ?_⟩
  rw [forM_befriend hn hknown hnew] at hloop
  cases hloop
  rw [bind_of_ok (updateNode_of_ok _ (fogNode_touch hn)), touch_touch,
    bind_of_ok (updateHead_of_ok _ (puddleHead_touch hh)), touch_touch] at hj
  obtain ⟨_, _, hrefresh, -⟩ := bind_eq_ok_iff.1 hj
  intro p hp
  obtain ⟨_, hg⟩ := parent_of_refreshParent (puddleHead_touch hh) hrefresh p (by
    rw [← hp, ← h.parent_addMember node n.characteristics]
    exact congrArg PuddleHead.parent (if_pos rfl))
  obtain ⟨g, hg, -⟩ := puddleHead_touch_iff.1 hg
  exact ⟨g, hg⟩

/-- A join succeeds exactly when all it looks up is there. -/
theorem join_eq_ok_iff :
    join head node r = .ok a q ↔ ∃ t, r.Joins head node a t ∧ q = r.touch t := by
  constructor
  · intro hj
    cases hh : r.puddleHead head with
    | error fault =>
      unfold join at hj
      rw [bind_of_error (puddleHead_of_error hh)] at hj
      cases hj
    | ok h =>
      by_cases hlisted : node ∈ h.members
      · rw [join_of_listed hh hlisted] at hj
        cases hj
        exact ⟨_, .listed hh hlisted, (touch_nothing r).symm⟩
      · cases hn : r.fogNode node with
        | error fault =>
          rw [join_of_unknown hh hn hlisted] at hj
          cases hj
        | ok n =>
          cases hd : n.isDeparted with
          | true =>
            rw [join_of_stale hh hn (.inr hd)] at hj
            cases hj
            exact ⟨_, .gone hh hn hd, (touch_nothing r).symm⟩
          | false =>
            obtain ⟨hknown, hparent⟩ := known_of_join hh hn hlisted hd hj
            rw [join_of_fresh hh hn hlisted hd hknown hparent] at hj
            cases hj
            exact ⟨_, .fresh hh hn hlisted hd hknown hparent, rfl⟩
  · rintro ⟨t, ht, rfl⟩
    cases ht with
    | listed host old => rw [join_of_listed host old, touch_nothing]
    | gone host guest departed => rw [join_of_stale host guest (.inr departed), touch_nothing]
    | fresh host guest new present known parent =>
      exact join_of_fresh host guest new present known parent

/-- Joins of different nodes into different puddles can be done in either order: the answers and the
registry are the same. -/
theorem joins_commute (hheads : head ≠ other) (hnodes : node ≠ guest)
    (hfirst : join head node r = .ok a q) (hsecond : join other guest q = .ok b s) :
    ∃ p, join other guest r = .ok b p ∧ join head node p = .ok a s := by
  obtain ⟨t, ht, rfl⟩ := join_eq_ok_iff.1 hfirst
  obtain ⟨v, hv, rfl⟩ := join_eq_ok_iff.1 hsecond
  have hv : r.Joins other guest b v := (ht.unnoticed hheads.symm).joins_iff.1 hv
  have ht' : (r.touch v).Joins head node a t := (hv.unnoticed hheads).joins_iff.2 ht
  refine ⟨r.touch v, join_eq_ok_iff.2 ⟨v, hv, rfl⟩, join_eq_ok_iff.2 ⟨t, ht', ?_⟩⟩
  rw [touch_touch, touch_touch, ht.andThen_comm hv hheads hnodes]

end Change

namespace Registry.Swap

/-- A node in the puddle of a head. -/
def dweller (id head : EntityId) : FogNode :=
  (FogNode.create id "dweller" 1 (.stationary ⟨0, 0⟩ ⟨0, 0, 1, 1⟩) .none).setOwner head

/-- A head below the head with the number 1. -/
def sibling (id : EntityId) (members : List EntityId) : PuddleHead :=
  (members.foldl (fun h m => h.addMember m .none)
    (PuddleHead.create id "sibling" 1 (.rectangle 0 0 1 1) ⟨0, 0⟩)).setParent 1

/-- The head above both siblings. -/
def parent : PuddleHead :=
  ((PuddleHead.create 1 "parent" 0 (.rectangle 0 0 1 1) ⟨0, 0⟩).addChild 2 [4, 6]).addChild 3 [5]

/-- Two sibling heads, the one with a node that has departed and a live one, the other with one
live node. -/
def registry : Registry :=
  (((((Registry.empty.put 1 (.puddleHead parent)).put 2 (.puddleHead (sibling 2 [4, 6]))).put 3
    (.puddleHead (sibling 3 [5]))).put 4 (.fogNode (dweller 4 2).depart)).put 5
    (.fogNode (dweller 5 3))).put 6 (.fogNode (dweller 6 2))

/-- Two live nodes can join each other's puddles in either order. -/
theorem joins_commute_siblings :
    2 ≠ 3 ∧ 5 ≠ 6 ∧ ∃ q s, Change.join 2 5 registry = .ok true q ∧ Change.join 3 6 q = .ok true s ∧
      ∃ p, Change.join 3 6 registry = .ok true p ∧ Change.join 2 5 p = .ok true s :=
  ⟨by decide, by decide, _, _, rfl, rfl, Change.joins_commute (by decide) (by decide) rfl rfl⟩

-- They meet twice, and their common parent has both new lists.
example : ∃ q s n g, Change.join 2 5 registry = .ok true q ∧ Change.join 3 6 q = .ok true s ∧
    s.fogNode 5 = .ok n ∧ n.buddies.toList = [6] ∧ s.puddleHead 1 = .ok g ∧
    g.childPuddles.get? 2 = some [4, 6, 5] ∧ g.childPuddles.get? 3 = some [5, 6] :=
  ⟨_, _, _, _, rfl, rfl, rfl, rfl, rfl, rfl, rfl⟩

end Registry.Swap

end FogNet
