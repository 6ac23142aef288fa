import FogNet.Proofs.Membership.Wiring
import FogNet.Proofs.Registry.Relations

/-!
# Agreement of the records

`Enrolled` ties the lists of the heads to the standing of the nodes and to the copies that parents
keep, `Befriended` pins down the buddy sets: two nodes of one owner are buddies, and buddies are
listed by one head. A registry that has both and is wired is `Orderly`. A touch that leaves lists,
standings and ties alone keeps it orderly (`Orderly.neutral`).
-/

namespace FogNet

namespace Registry

/-- What a node offers. -/
def Offers (r : Registry) (node : EntityId) (c : Characteristics) : Prop :=
  ∃ n, r.fogNode node = .ok n ∧ n.characteristics = c

/-- Parents have up-to-date copies of their children's members. -/
def Copied (r : Registry) : Prop :=
  ∀ ⦃k h p⦄, r.puddleHead k = .ok h → h.parent = some p →
    ∃ g, r.puddleHead p = .ok g ∧ g.childPuddles.get? k = some h.members

/-- The lists of the heads agree with the nodes and with the copies of the parents. -/
structure Enrolled (r : Registry) : Prop where
  /-- No head lists a node twice. -/
  nodup : ∀ {k h}, r.puddleHead k = .ok h → h.members.Nodup
  /-- Only nodes are listed. -/
  known : ∀ {a k}, r.Lists a k → r.kind k = .ok .fogNode
  /-- A head knows what its members offer and nothing else. -/
  offers : ∀ {k h m c}, r.puddleHead k = .ok h →
    (h.memberCharacteristics.get? m = some c ↔ m ∈ h.members ∧ r.Offers m c)
  /-- Owners list what they own. -/
  owned : ∀ {a k}, r.Owns a k → r.Lists a k
  /-- Parents have up-to-date copies. -/
  copied : r.Copied

/-- The buddy sets say who shares a puddle. -/
structure Befriended (r : Registry) : Prop where
  /-- Buddies are buddies of each other. -/
  symmetric : ∀ {a b}, r.Befriends a b → r.Befriends b a
  /-- No node is its own buddy. -/
  proper : ∀ {a}, ¬ r.Befriends a a
  /-- Only nodes that have not departed have buddies. -/
  living : ∀ {a b}, r.Befriends a b → r.Lives a
  /-- Nodes of one owner are buddies. -/
  together : ∀ {h a b}, r.Owns h a → r.Owns h b → a ≠ b → r.Befriends a b
  /-- Buddies are listed by one head. -/
  met : ∀ {a b}, r.Befriends a b → ∃ h, r.Lists h a ∧ r.Lists h b

/-- All records agree. -/
structure Orderly (r : Registry) : Prop where
  /-- Numbers stand for what they are kept as. -/
  wired : r.Wired
  /-- The lists agree with the nodes. -/
  enrolled : r.Enrolled
  /-- The buddy sets say who shares a puddle. -/
  befriended : r.Befriended

variable {r : Registry} {t : Touch} {head node a b k : EntityId} {h g : PuddleHead} {n m : FogNode}
  {c : Characteristics}

theorem offers_touch_iff (ht : t.Faithful) : (r.touch t).Offers k c ↔ r.Offers k c := by
  unfold Offers
  simp only [fogNode_touch_iff]
  constructor
  · rintro ⟨m, ⟨n, hn, rfl⟩, hc⟩
    exact ⟨n, hn, (ht.node k n).characteristics ▸ hc⟩
  · rintro ⟨n, hn, hc⟩
    exact ⟨_, ⟨n, hn, rfl⟩, (ht.node k n).characteristics.trans hc⟩

/-! ## What an orderly registry answers -/

theorem Enrolled.node_of_mem (he : r.Enrolled) (hh : r.puddleHead head = .ok h)
    (hk : k ∈ h.members) : ∃ n, r.fogNode k = .ok n :=
  kind_eq_fogNode_iff.1 (he.known ⟨h, hh, hk⟩)

theorem Enrolled.offer_of_not_mem (he : r.Enrolled) (hh : r.puddleHead head = .ok h)
    (hk : k ∉ h.members) : h.memberCharacteristics.get? k = none := by
  refine Option.eq_none_iff_forall_ne_some.2 fun c hc => ?_
  exact hk ((he.offers hh).1 hc).1

theorem Enrolled.parent (he : r.Enrolled) (hh : r.puddleHead head = .ok h) (p : EntityId)
    (hp : h.parent = some p) : ∃ g, r.puddleHead p = .ok g := by
  obtain ⟨g, hg, -⟩ := he.copied hh hp
  exact ⟨g, hg⟩

theorem Enrolled.head_of_owns (he : r.Enrolled) (ho : r.Owns head node) :
    ∃ h, r.puddleHead head = .ok h := by
  obtain ⟨h, hh, -⟩ := he.owned ho
  exact ⟨h, hh⟩

/-! ## Touches that leave everybody where they are -/

/-- A touch that leaves lists, parents and copies alone keeps the copies up to date. -/
theorem Copied.keep (hc : r.Copied)
    (hhead : ∀ k h, (t.head k h).parent = h.parent ∧ (t.head k h).members = h.members ∧
      (t.head k h).childPuddles = h.childPuddles) : (r.touch t).Copied := by
  intro k g p hg hp
  obtain ⟨h, hh, rfl⟩ := puddleHead_touch_iff.1 hg
  rw [(hhead k h).1] at hp
  obtain ⟨f, hf, hcopy⟩ := hc hh hp
  refine ⟨_, puddleHead_touch hf, ?_⟩
  rw [(hhead p f).2.2, (hhead k h).2.1, hcopy]

/-- A touch that leaves the heads alone and makes nobody an owner keeps the lists in agreement. -/
theorem Enrolled.keep (he : r.Enrolled) (ht : t.Faithful)
    (hhead : ∀ k h, (t.head k h).members = h.members ∧
      (t.head k h).memberCharacteristics = h.memberCharacteristics ∧
      (t.head k h).childPuddles = h.childPuddles)
    (howns : ∀ {a k}, (r.touch t).Owns a k → r.Owns a k) : (r.touch t).Enrolled := by
  have hlists : ∀ a k, (r.touch t).Lists a k ↔ r.Lists a k := fun a k => by
    rw [lists_touch_iff]
    simp only [(hhead _ _).1]
    rfl
  refine ⟨fun {k g} hg => ?_, fun {a k} hl => ?_, fun {k g m c} hg => ?_, fun {a k} ho => ?_,
    Copied.keep he.copied fun k h => ⟨(ht.head k h).parent, (hhead k h).1, (hhead k h).2.2⟩⟩
  · obtain ⟨h, hh, rfl⟩ := puddleHead_touch_iff.1 hg
    rw [(hhead k h).1]
    exact he.nodup hh
  · rw [kind_touch]
    exact he.known ((hlists a k).1 hl)
  · obtain ⟨h, hh, rfl⟩ := puddleHead_touch_iff.1 hg
    rw [(hhead k h).1, (hhead k h).2.1, offers_touch_iff ht]
    exact he.offers hh
  · exact (hlists a k).2 (he.owned (howns ho))

/-- A touch that keeps lists, standings and ties keeps a registry orderly. -/
theorem Orderly.neutral (hr : r.Orderly) (ht : t.Faithful)
    (hnode : ∀ k n, (t.node k n).standing = n.standing ∧ (t.node k n).buddies = n.buddies)
    (hhead : ∀ k h, (t.head k h).members = h.members ∧
      (t.head k h).memberCharacteristics = h.memberCharacteristics ∧
      (t.head k h).childPuddles = h.childPuddles) : (r.touch t).Orderly := by
  have hlists : ∀ a k, (r.touch t).Lists a k ↔ r.Lists a k := fun a k => by
    rw [lists_touch_iff]
    simp only [(hhead _ _).1]
    rfl
  have howns : ∀ a k, (r.touch t).Owns a k ↔ r.Owns a k := fun a k => by
    rw [owns_touch_iff]
    simp only [(hnode _ _).1]
    rfl
  have hbefriends : ∀ a b, (r.touch t).Befriends a b ↔ r.Befriends a b := fun a b => by
    rw [befriends_touch_iff]
    simp only [(hnode _ _).2]
    rfl
  have hlives : ∀ k, (r.touch t).Lives k ↔ r.Lives k := fun k => by
    rw [lives_touch_iff]
    simp only [(hnode _ _).1]
    rfl
  have hb := hr.befriended
  refine ⟨hr.wired.touch ht, hr.enrolled.keep ht hhead fun {a k} => (howns a k).1, ?_⟩
  refine ⟨?_, ?_, ?_, ?_, ?_⟩
  · simpa only [hbefriends] using @hb.symmetric
  · simpa only [hbefriends] using @hb.proper
  · simpa only [hbefriends, hlives] using @hb.living
  · simpa only [hbefriends, howns] using @hb.together
  · simpa only [hbefriends, hlists] using @hb.met

/-- Changing of one node neither its standing nor its ties keeps a registry orderly. -/
theorem Orderly.onNode {f : FogNode → FogNode} (hr : r.Orderly)
    (hf : ∀ n : FogNode, n.SameDevice (f n) ∧ (f n).standing = n.standing ∧
      (f n).buddies = n.buddies) : (r.touch (.onNode node f)).Orderly := by
  refine hr.neutral (Touch.Faithful.onNode fun n => (hf n).1) (fun k n => ?_)
    fun k h => ⟨rfl, rfl, rfl⟩
  unfold Touch.onNode
  simp only
  split_ifs
  · exact (hf n).2
  · exact ⟨rfl, rfl⟩

/-! ## Lists and their copies -/

theorem members_relisting {parent : Option EntityId} {f : PuddleHead → PuddleHead}
    {l : List EntityId} :
    (Touch.relisting head parent f l k g).members =
      if k = head then (f g).members else g.members := by
  unfold Touch.relisting
  simp only
  split_ifs <;> rfl

theorem memberCharacteristics_relisting {parent : Option EntityId} {f : PuddleHead → PuddleHead}
    {l : List EntityId} :
    (Touch.relisting head parent f l k g).memberCharacteristics =
      if k = head then (f g).memberCharacteristics else g.memberCharacteristics := by
  unfold Touch.relisting
  simp only
  split_ifs <;> rfl

theorem get?_childPuddles_relisting {parent : Option EntityId} {f : PuddleHead → PuddleHead}
    {l : List EntityId} (hf : (f g).childPuddles = g.childPuddles) (j : EntityId) :
    (Touch.relisting head parent f l k g).childPuddles.get? j =
      if parent = some k ∧ j = head then (g.childPuddles.get? j).map fun _ => l
      else g.childPuddles.get? j := by
  have hg : (if k = head then f g else g).childPuddles = g.childPuddles := by
    split_ifs
    · exact hf
    · rfl
  unfold Touch.relisting
  simp only
  by_cases hp : parent = some k
  · rw [if_pos hp]
    simp only [PuddleHead.refreshChild, SortedMap.get?_modify, hg, hp, true_and]
  · rw [if_neg hp, hg, if_neg fun hc => hp hc.1]

/-- Renewing the copy that the parent of a changed head keeps leaves all copies up to date. -/
theorem Copied.relisting {f : PuddleHead → PuddleHead} (hc : r.Copied) (ht : t.Faithful)
    (hh : r.puddleHead head = .ok h)
    (hhead : t.head = Touch.relisting head h.parent f (f h).members)
    (hf : ∀ g, (f g).childPuddles = g.childPuddles) : (r.touch t).Copied := by
  intro k g' p hg' hp
  obtain ⟨g, hg, rfl⟩ := puddleHead_touch_iff.1 hg'
  rw [(ht.head k g).parent] at hp
  obtain ⟨q, hq, hcopy⟩ := hc hg hp
  refine ⟨_, puddleHead_touch hq, ?_⟩
  rw [hhead, get?_childPuddles_relisting (hf q), members_relisting, hcopy]
  by_cases hk : k = head
  · subst hk
    rw [puddleHead_inj hg hh] at hp ⊢
    rw [if_pos ⟨hp, rfl⟩, if_pos rfl]
    rfl
  · rw [if_neg fun hc => hk hc.2, if_neg hk]

theorem isDeparted_eq_true_iff : n.isDeparted = true ↔ n.standing = .departed := by
  unfold FogNode.isDeparted
  rw [beq_iff_eq]

theorem isDeparted_eq_false_iff : n.isDeparted = false ↔ n.standing ≠ .departed := by
  rw [← Bool.not_eq_true, isDeparted_eq_true_iff]

end Registry

end FogNet
