import FogNet.Proofs.Membership.Pruned

/-!
# Growing networks

A network grows if entities, links and relatives are added and nobody's membership changes: nodes
that were there stand as they stood, new ones are in no puddle, and lists stay as they are or are
empty. Growth keeps the records in agreement (`Grown.orderly`) and the heads pruned. The two ways to
grow are to store a newborn entity under a free number (`Grown.put`) and to touch what membership
does not depend on (`Grown.touch`).
-/

namespace FogNet

/-- The same member of the same puddle with the same ties. -/
def FogNode.SameMember (n m : FogNode) : Prop :=
  m.standing = n.standing ∧ m.pending = n.pending ∧ m.buddies = n.buddies ∧
    m.characteristics = n.characteristics

/-- A node that nobody has dealt with yet. -/
def FogNode.Unplaced (n : FogNode) : Prop :=
  n.standing = .unassigned ∧ n.pending = none ∧ n.buddies = .empty

/-- A head with the same list. -/
def PuddleHead.SameList (h g : PuddleHead) : Prop :=
  g.members = h.members ∧ g.memberCharacteristics = h.memberCharacteristics

/-- A head without members. -/
def PuddleHead.Vacant (h : PuddleHead) : Prop :=
  h.members = [] ∧ h.memberCharacteristics = .empty

namespace Registry

/-- One registry comes from another by additions that change nobody's membership. -/
structure Grown (r q : Registry) : Prop where
  /-- Numbers stand for what they are kept as. -/
  wired : q.Wired
  /-- Parents have up-to-date copies. -/
  copied : q.Copied
  /-- Nodes stay members, and new nodes are in no puddle. -/
  node : ∀ {k m}, q.fogNode k = .ok m →
    (∃ n, r.fogNode k = .ok n ∧ n.SameMember m) ∨ r.kind k ≠ .ok .fogNode ∧ m.Unplaced
  /-- Heads keep their lists, and new heads have no members. -/
  head : ∀ {k g}, q.puddleHead k = .ok g →
    (∃ h, r.puddleHead k = .ok h ∧ h.SameList g) ∨ r.kind k ≠ .ok .puddleHead ∧ g.Vacant
  /-- Nothing changes its kind. -/
  kind : ∀ {k κ}, r.kind k = .ok κ → q.kind k = .ok κ
  /-- Nothing is kept for strangers. -/
  pruned : r.Pruned → q.Pruned

variable {r q p : Registry} {t : Touch} {k a b : EntityId} {n m : FogNode} {h g : PuddleHead}

namespace Grown

theorem refl (hw : r.Wired) (hc : r.Copied) : Grown r r :=
  ⟨hw, hc, fun {_ m} hm => .inl ⟨m, hm, rfl, rfl, rfl, rfl⟩, fun {_ g} hg => .inl ⟨g, hg, rfl, rfl⟩,
    fun hk => hk, fun hr => hr⟩

theorem trans (hq : Grown r q) (hp : Grown q p) : Grown r p := by
  refine ⟨hp.wired, hp.copied, fun {k m} hm => ?_, fun {k g} hg => ?_,
    fun hk => hp.kind (hq.kind hk), fun hr => hp.pruned (hq.pruned hr)⟩
  · rcases hp.node hm with ⟨n, hn, h1, h2, h3, h4⟩ | ⟨hk, hm⟩
    · rcases hq.node hn with ⟨x, hx, g1, g2, g3, g4⟩ | ⟨hk, hu1, hu2, hu3⟩
      · exact .inl ⟨x, hx, h1.trans g1, h2.trans g2, h3.trans g3, h4.trans g4⟩
      · exact .inr ⟨hk, h1.trans hu1, h2.trans hu2, h3.trans hu3⟩
    · exact .inr ⟨fun hc => hk (hq.kind hc), hm⟩
  · rcases hp.head hg with ⟨h, hh, h1, h2⟩ | ⟨hk, hg⟩
    · rcases hq.head hh with ⟨x, hx, g1, g2⟩ | ⟨hk, hv1, hv2⟩
      · exact .inl ⟨x, hx, h1.trans g1, h2.trans g2⟩
      · exact .inr ⟨hk, h1.trans hv1, h2.trans hv2⟩
    · exact .inr ⟨fun hc => hk (hq.kind hc), hg⟩

theorem node_of_old (hq : Grown r q) (hn : r.fogNode k = .ok n) :
    ∃ m, q.fogNode k = .ok m ∧ n.SameMember m := by
  obtain ⟨m, hm⟩ := kind_eq_fogNode_iff.1 (hq.kind (kind_eq_fogNode_iff.2 ⟨n, hn⟩))
  rcases hq.node hm with ⟨n', hn', hsame⟩ | ⟨hk, -⟩
  · exact ⟨m, hm, fogNode_inj hn' hn ▸ hsame⟩
  · exact absurd (kind_eq_fogNode_iff.2 ⟨n, hn⟩) hk

theorem head_of_old (hq : Grown r q) (hh : r.puddleHead k = .ok h) :
    ∃ g, q.puddleHead k = .ok g ∧ h.SameList g := by
  obtain ⟨g, hg⟩ := kind_eq_puddleHead_iff.1 (hq.kind (kind_eq_puddleHead_iff.2 ⟨h, hh⟩))
  rcases hq.head hg with ⟨h', hh', hsame⟩ | ⟨hk, -⟩
  · exact ⟨g, hg, puddleHead_inj hh' hh ▸ hsame⟩
  · exact absurd (kind_eq_puddleHead_iff.2 ⟨h, hh⟩) hk

theorem lists_iff (hq : Grown r q) : q.Lists a k ↔ r.Lists a k := by
  constructor
  · rintro ⟨g, hg, hk⟩
    rcases hq.head hg with ⟨h, hh, hsame⟩ | ⟨-, hv⟩
    · exact ⟨h, hh, hsame.1 ▸ hk⟩
    · rw [hv.1] at hk
      cases hk
  · rintro ⟨h, hh, hk⟩
    obtain ⟨g, hg, hsame⟩ := hq.head_of_old hh
    exact ⟨g, hg, hsame.1 ▸ hk⟩

theorem owns_iff (hq : Grown r q) : q.Owns a k ↔ r.Owns a k := by
  constructor
  · rintro ⟨m, hm, ho⟩
    rcases hq.node hm with ⟨n, hn, hsame⟩ | ⟨-, hu⟩
    · exact ⟨n, hn, hsame.1 ▸ ho⟩
    · rw [hu.1] at ho
      cases ho
  · rintro ⟨n, hn, ho⟩
    obtain ⟨m, hm, hsame⟩ := hq.node_of_old hn
    exact ⟨m, hm, hsame.1.trans ho⟩

theorem befriends_iff (hq : Grown r q) : q.Befriends a b ↔ r.Befriends a b := by
  constructor
  · rintro ⟨m, hm, hb⟩
    rcases hq.node hm with ⟨n, hn, hsame⟩ | ⟨-, hu⟩
    · exact ⟨n, hn, hsame.2.2.1 ▸ hb⟩
    · rw [hu.2.2] at hb
      exact absurd hb (SortedSet.not_mem_empty b)
  · rintro ⟨n, hn, hb⟩
    obtain ⟨m, hm, hsame⟩ := hq.node_of_old hn
    exact ⟨m, hm, hsame.2.2.1 ▸ hb⟩

theorem lives (hq : Grown r q) (hl : r.Lives k) : q.Lives k := by
  obtain ⟨n, hn, hd⟩ := hl
  obtain ⟨m, hm, hsame⟩ := hq.node_of_old hn
  exact ⟨m, hm, hsame.1 ▸ hd⟩

theorem offers_iff (hq : Grown r q) (hn : r.fogNode k = .ok n) {c : Characteristics} :
    q.Offers k c ↔ r.Offers k c := by
  obtain ⟨m, hm, hsame⟩ := hq.node_of_old hn
  have hc := hsame.2.2.2
  constructor
  · rintro ⟨m', hm', rfl⟩
    exact ⟨n, hn, fogNode_inj hm hm' ▸ hc.symm⟩
  · rintro ⟨n', hn', rfl⟩
    exact ⟨m, hm, fogNode_inj hn hn' ▸ hc⟩

/-- Growth keeps the records in agreement. -/
theorem orderly (hr : r.Orderly) (hq : Grown r q) : q.Orderly := by
  have he := hr.enrolled
  have hb := hr.befriended
  refine ⟨hq.wired, ⟨fun {k g} hg => ?_, fun {a k} hl => ?_, fun {k g m c} hg => ?_,
    fun {a k} ho => ?_, hq.copied⟩, ⟨?_, ?_, fun {a b} hab => ?_, ?_, ?_⟩⟩
  · rcases hq.head hg with ⟨h, hh, hsame⟩ | ⟨-, hv⟩
    · exact hsame.1 ▸ he.nodup hh
    · exact hv.1 ▸ List.nodup_nil
  · exact hq.kind (he.known (hq.lists_iff.1 hl))
  · rcases hq.head hg with ⟨h, hh, hsame⟩ | ⟨-, hv⟩
    · rw [hsame.1, hsame.2, he.offers hh]
      refine and_congr_right fun hm => ?_
      obtain ⟨n, hn⟩ := he.node_of_mem hh hm
      exact (hq.offers_iff hn).symm
    · rw [hv.1, hv.2]
      simp
  · exact hq.lists_iff.2 (he.owned (hq.owns_iff.1 ho))
  · simpa only [hq.befriends_iff] using @hb.symmetric
  · simpa only [hq.befriends_iff] using @hb.proper
  · exact hq.lives (hb.living (hq.befriends_iff.1 hab))
  · simpa only [hq.befriends_iff, hq.owns_iff] using @hb.together
  · simpa only [hq.befriends_iff, hq.lists_iff] using @hb.met

/-- A touch that membership does not depend on is growth. -/
theorem touch (hw : (r.touch t).Wired) (hc : (r.touch t).Copied)
    (hnode : ∀ k (n : FogNode), n.SameMember (t.node k n))
    (hhead : ∀ k (h : PuddleHead), h.SameList (t.head k h))
    (hpruned : r.Pruned → (r.touch t).Pruned) : Grown r (r.touch t) := by
  refine ⟨hw, hc, fun {k m} hm => ?_, fun {k g} hg => ?_, fun {k κ} hk => by rwa [kind_touch],
    hpruned⟩
  · obtain ⟨n, hn, rfl⟩ := fogNode_touch_iff.1 hm
    exact .inl ⟨n, hn, hnode k n⟩
  · obtain ⟨h, hh, rfl⟩ := puddleHead_touch_iff.1 hg
    exact .inl ⟨h, hh, hhead k h⟩

end Grown

/-! ## Newborn entities -/

/-- An entity as it is when it gets its number. -/
def Newborn (r : Registry) (id : EntityId) : Entity → Prop
  | .fogNode n => n.id = id ∧ n.Unplaced ∧ n.links = .empty
  | .puddleHead h => h.id = id ∧ h.Vacant ∧ h.buddies = .empty ∧ h.parent = none ∧
    h.childPuddles = .empty ∧ h.runningServices = .empty
  | .link l => l.id = id ∧ r.Sited l.first ∧ r.Sited l.second
  | .broker b => b.id = id ∧ b.headsByLevel = .empty

theorem get?_put (r : Registry) (id k : EntityId) (e : Entity) :
    (r.put id e).entities.get? k = if k = id then some e else r.entities.get? k :=
  SortedMap.get?_insert _ _ _ _

theorem get?_eq_none_of_contains (hk : r.contains k = false) : r.entities.get? k = none := by
  unfold contains SortedMap.contains at hk
  rwa [Option.isSome_eq_false_iff, Option.isNone_iff_eq_none] at hk

theorem kind_put {id : EntityId} {e : Entity} {κ : EntityKind} (hfree : r.contains id = false)
    (hk : r.kind k = .ok κ) : (r.put id e).kind k = .ok κ := by
  obtain ⟨d, hd, hκ⟩ := kind_eq_ok_iff.1 hk
  refine kind_eq_ok_iff.2 ⟨d, ?_, hκ⟩
  rw [get?_put, if_neg]
  · exact hd
  · rintro rfl
    rw [get?_eq_none_of_contains hfree] at hd
    cases hd

theorem sited_put {id : EntityId} {e : Entity} (hfree : r.contains id = false) (hk : r.Sited k) :
    (r.put id e).Sited k :=
  hk.imp (kind_put hfree) (kind_put hfree)

/-- What a registry holds once a newborn is stored: the newborn, or what it held before. -/
theorem get?_put_cases {id : EntityId} {e d : Entity}
    (hd : (r.put id e).entities.get? k = some d) :
    k = id ∧ d = e ∨ k ≠ id ∧ r.entities.get? k = some d := by
  rw [get?_put] at hd
  split_ifs at hd with hk
  · exact .inl ⟨hk, (Option.some.inj hd).symm⟩
  · exact .inr ⟨hk, hd⟩

theorem puddleHead_put {id : EntityId} {e : Entity} (hfree : r.contains id = false)
    (hh : r.puddleHead k = .ok h) : (r.put id e).puddleHead k = .ok h := by
  rw [puddleHead_eq_ok_iff] at hh ⊢
  rw [get?_put, if_neg]
  · exact hh
  · rintro rfl
    rw [get?_eq_none_of_contains hfree] at hh
    cases hh

theorem Wired.put {id : EntityId} {e : Entity} (hw : r.Wired) (hfree : r.contains id = false)
    (he : r.Newborn id e) : (r.put id e).Wired := by
  refine ⟨fun {k d} hd => ?_, fun {k h a} hh ha => ?_, fun {k b level a} hb ha => ?_,
    fun {k l} hl => ?_, fun {k n a} hn ha => ?_⟩
  · rcases get?_put_cases hd with ⟨rfl, rfl⟩ | ⟨-, hd⟩
    · cases d <;> exact he.1
    · exact hw.numbered hd
  · rcases get?_put_cases (puddleHead_eq_ok_iff.1 hh) with ⟨rfl, rfl⟩ | ⟨-, hd⟩
    · rw [he.2.2.1] at ha
      exact absurd ha (SortedSet.not_mem_empty a)
    · obtain ⟨g, hg, hk⟩ := hw.siblings (puddleHead_eq_ok_iff.2 hd) ha
      exact ⟨g, puddleHead_put hfree hg, hk⟩
  · rcases get?_put_cases (broker_eq_ok_iff.1 hb) with ⟨rfl, rfl⟩ | ⟨-, hd⟩
    · unfold Broker.headsAt at ha
      rw [he.2] at ha
      cases ha
    · exact kind_put hfree (hw.indexed (broker_eq_ok_iff.2 hd) ha)
  · rcases get?_put_cases (link_eq_ok_iff.1 hl) with ⟨rfl, rfl⟩ | ⟨-, hd⟩
    · exact ⟨sited_put hfree he.2.1, sited_put hfree he.2.2⟩
    · obtain ⟨h1, h2⟩ := hw.ended (link_eq_ok_iff.2 hd)
      exact ⟨sited_put hfree h1, sited_put hfree h2⟩
  · rcases get?_put_cases (fogNode_eq_ok_iff.1 hn) with ⟨rfl, rfl⟩ | ⟨-, hd⟩
    · rw [he.2.2] at ha
      exact absurd ha (SortedSet.not_mem_empty a)
    · exact kind_put hfree (hw.cabled (fogNode_eq_ok_iff.2 hd) ha)

theorem Copied.put {id : EntityId} {e : Entity} (hc : r.Copied) (hfree : r.contains id = false)
    (he : r.Newborn id e) : (r.put id e).Copied := by
  intro k h p hh hp
  rcases get?_put_cases (puddleHead_eq_ok_iff.1 hh) with ⟨rfl, rfl⟩ | ⟨-, hd⟩
  · rw [he.2.2.2.1] at hp
    cases hp
  · obtain ⟨g, hg, hcopy⟩ := hc (puddleHead_eq_ok_iff.2 hd) hp
    exact ⟨g, puddleHead_put hfree hg, hcopy⟩

theorem Pruned.put {id : EntityId} {e : Entity} (hr : r.Pruned) (hfree : r.contains id = false)
    (he : r.Newborn id e) : (r.put id e).Pruned := by
  refine ⟨fun {a g c l} hg hl => ?_, fun {a g m l} hg hl => ?_⟩
  · rcases get?_put_cases (puddleHead_eq_ok_iff.1 hg) with ⟨rfl, rfl⟩ | ⟨-, hd⟩
    · rw [he.2.2.2.2.1] at hl
      cases hl
    · obtain ⟨h, hh, hparent⟩ := hr.copies (puddleHead_eq_ok_iff.2 hd) hl
      exact ⟨h, puddleHead_put hfree hh, hparent⟩
  · rcases get?_put_cases (puddleHead_eq_ok_iff.1 hg) with ⟨rfl, rfl⟩ | ⟨-, hd⟩
    · rw [he.2.2.2.2.2] at hl
      cases hl
    · exact hr.services (puddleHead_eq_ok_iff.2 hd) hl

/-- Storing a newborn under a free number is growth. -/
theorem Grown.put {id : EntityId} {e : Entity} (hw : r.Wired) (hc : r.Copied)
    (hfree : r.contains id = false) (he : r.Newborn id e) : Grown r (r.put id e) := by
  have hnone : ∀ {κ}, r.kind id ≠ .ok κ := fun {κ} hk => by
    obtain ⟨d, hd, -⟩ := kind_eq_ok_iff.1 hk
    rw [get?_eq_none_of_contains hfree] at hd
    cases hd
  refine ⟨hw.put hfree he, hc.put hfree he, fun {k m} hm => ?_, fun {k g} hg => ?_, kind_put hfree,
    fun hr => hr.put hfree he⟩
  · rcases get?_put_cases (fogNode_eq_ok_iff.1 hm) with ⟨rfl, rfl⟩ | ⟨-, hd⟩
    · exact .inr ⟨hnone, he.2.1⟩
    · exact .inl ⟨m, fogNode_eq_ok_iff.2 hd, rfl, rfl, rfl, rfl⟩
  · rcases get?_put_cases (puddleHead_eq_ok_iff.1 hg) with ⟨rfl, rfl⟩ | ⟨-, hd⟩
    · exact .inr ⟨hnone, he.2.1⟩
    · exact .inl ⟨g, puddleHead_eq_ok_iff.2 hd, rfl, rfl⟩

end Registry

end FogNet
