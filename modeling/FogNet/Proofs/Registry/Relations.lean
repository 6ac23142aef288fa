import FogNet.Proofs.Registry.Touch

/-!
# Who stands where

The records seen as relations between numbers: which head lists a node, which head owns it, which
nodes are buddies, who is still there, and in the middle of which change. What a touch does to a
relation is read off what it does to the records.
-/

namespace FogNet.Registry

/-- A head lists a node. -/
def Lists (r : Registry) (head node : EntityId) : Prop :=
  ∃ h, r.puddleHead head = .ok h ∧ node ∈ h.members

/-- A head owns a node. -/
def Owns (r : Registry) (head node : EntityId) : Prop :=
  ∃ n, r.fogNode node = .ok n ∧ n.standing = .owned head

/-- A node has another one among its buddies. -/
def Befriends (r : Registry) (node buddy : EntityId) : Prop :=
  ∃ n, r.fogNode node = .ok n ∧ buddy ∈ n.buddies

/-- A node has not departed. -/
def Lives (r : Registry) (node : EntityId) : Prop :=
  ∃ n, r.fogNode node = .ok n ∧ n.standing ≠ .departed

/-- A node has a standing. -/
def StandsAt (r : Registry) (node : EntityId) (standing : Standing) : Prop :=
  ∃ n, r.fogNode node = .ok n ∧ n.standing = standing

/-- A node has a standing and a change. -/
def Stands (r : Registry) (node : EntityId) (standing : Standing) (pending : Option Transition) :
    Prop :=
  ∃ n, r.fogNode node = .ok n ∧ n.standing = standing ∧ n.pending = pending

variable {r : Registry} {t : Touch} {head node a b k : EntityId} {h g : PuddleHead}
  {n m : FogNode} {standing : Standing} {pending : Option Transition}

/-! ## Relations read off a record -/

theorem fogNode_inj (hn : r.fogNode k = .ok n) (hm : r.fogNode k = .ok m) : n = m :=
  Except.ok.inj (hn.symm.trans hm)

theorem puddleHead_inj (hh : r.puddleHead k = .ok h) (hg : r.puddleHead k = .ok g) : h = g :=
  Except.ok.inj (hh.symm.trans hg)

theorem lists_iff (hh : r.puddleHead head = .ok h) : r.Lists head node ↔ node ∈ h.members := by
  constructor
  · rintro ⟨g, hg, hm⟩
    rwa [puddleHead_inj hh hg]
  · exact fun hm => ⟨h, hh, hm⟩

theorem owns_iff (hn : r.fogNode node = .ok n) : r.Owns head node ↔ n.standing = .owned head := by
  constructor
  · rintro ⟨m, hm, ho⟩
    rwa [fogNode_inj hn hm]
  · exact fun ho => ⟨n, hn, ho⟩

theorem befriends_iff (hn : r.fogNode a = .ok n) : r.Befriends a b ↔ b ∈ n.buddies := by
  constructor
  · rintro ⟨m, hm, hb⟩
    rwa [fogNode_inj hn hm]
  · exact fun hb => ⟨n, hn, hb⟩

theorem lives_iff (hn : r.fogNode k = .ok n) : r.Lives k ↔ n.standing ≠ .departed := by
  constructor
  · rintro ⟨m, hm, hd⟩
    rwa [fogNode_inj hn hm]
  · exact fun hd => ⟨n, hn, hd⟩

theorem stands_iff (hn : r.fogNode k = .ok n) :
    r.Stands k standing pending ↔ n.standing = standing ∧ n.pending = pending := by
  constructor
  · rintro ⟨m, hm, h⟩
    rwa [fogNode_inj hn hm]
  · exact fun h => ⟨n, hn, h⟩

theorem standsAt_iff (hn : r.fogNode k = .ok n) :
    r.StandsAt k standing ↔ n.standing = standing := by
  constructor
  · rintro ⟨m, hm, h⟩
    rwa [fogNode_inj hn hm]
  · exact fun h => ⟨n, hn, h⟩

theorem lives_or_departed (hk : r.kind k = .ok .fogNode) :
    r.Lives k ∨ r.StandsAt k .departed := by
  obtain ⟨n, hn⟩ := kind_eq_fogNode_iff.1 hk
  by_cases hd : n.standing = .departed
  · exact .inr ⟨n, hn, hd⟩
  · exact .inl ⟨n, hn, hd⟩

theorem StandsAt.kind (h : r.StandsAt k standing) : r.kind k = .ok .fogNode := by
  obtain ⟨n, hn, -⟩ := h
  exact kind_eq_fogNode_iff.2 ⟨n, hn⟩

theorem StandsAt.unique {standing' : Standing} (h : r.StandsAt k standing)
    (h' : r.StandsAt k standing') : standing' = standing := by
  obtain ⟨n, hn, rfl⟩ := h
  exact ((standsAt_iff hn).1 h').symm

theorem standsAt_of_toOption (h : (r.fogNode k).toOption.map (·.standing) = some standing) :
    r.StandsAt k standing := by
  obtain ⟨n, hn, hstanding⟩ := Option.map_eq_some_iff.1 h
  exact ⟨n, eq_ok_of_toOption hn, hstanding⟩

theorem Owns.lives (ho : r.Owns head node) : r.Lives node := by
  obtain ⟨n, hn, hs⟩ := ho
  exact ⟨n, hn, by simp [hs]⟩

theorem owns_iff_owner? (hn : r.fogNode node = .ok n) :
    r.Owns head node ↔ n.owner? = some head := by
  rw [owns_iff hn]
  unfold FogNode.owner?
  cases n.standing <;> simp [Standing.owner?]

/-! ## Relations after a touch -/

theorem lists_touch_iff :
    (r.touch t).Lists head node ↔
      ∃ h, r.puddleHead head = .ok h ∧ node ∈ (t.head head h).members := by
  unfold Lists
  simp only [puddleHead_touch_iff]
  constructor
  · rintro ⟨g, ⟨h, hh, rfl⟩, hm⟩
    exact ⟨h, hh, hm⟩
  · rintro ⟨h, hh, hm⟩
    exact ⟨_, ⟨h, hh, rfl⟩, hm⟩

/-- Changing a node afterwards does not change the lists. -/
theorem lists_andThen_onNode_iff {f : FogNode → FogNode} :
    (r.touch (t.andThen (.onNode node f))).Lists a k ↔ (r.touch t).Lists a k := by
  rw [lists_touch_iff, lists_touch_iff]
  rfl

theorem owns_touch_iff :
    (r.touch t).Owns head node ↔
      ∃ n, r.fogNode node = .ok n ∧ (t.node node n).standing = .owned head := by
  unfold Owns
  simp only [fogNode_touch_iff]
  constructor
  · rintro ⟨m, ⟨n, hn, rfl⟩, ho⟩
    exact ⟨n, hn, ho⟩
  · rintro ⟨n, hn, ho⟩
    exact ⟨_, ⟨n, hn, rfl⟩, ho⟩

/-- Changing a node does not change who owns it if its standing stays. -/
theorem owns_onNode_iff {f : FogNode → FogNode} (hf : ∀ n, (f n).standing = n.standing) :
    (r.touch (.onNode node f)).Owns a k ↔ r.Owns a k := by
  rw [owns_touch_iff]
  simp only [Touch.standing_onNode hf]
  rfl

theorem owns_andThen_onNode_iff {f : FogNode → FogNode} (hf : ∀ n, (f n).standing = n.standing) :
    (r.touch (t.andThen (.onNode node f))).Owns a k ↔ (r.touch t).Owns a k := by
  rw [← touch_touch, owns_onNode_iff hf]

theorem befriends_touch_iff :
    (r.touch t).Befriends a b ↔ ∃ n, r.fogNode a = .ok n ∧ b ∈ (t.node a n).buddies := by
  unfold Befriends
  simp only [fogNode_touch_iff]
  constructor
  · rintro ⟨m, ⟨n, hn, rfl⟩, hb⟩
    exact ⟨n, hn, hb⟩
  · rintro ⟨n, hn, hb⟩
    exact ⟨_, ⟨n, hn, rfl⟩, hb⟩

theorem lives_touch_iff :
    (r.touch t).Lives k ↔ ∃ n, r.fogNode k = .ok n ∧ (t.node k n).standing ≠ .departed := by
  unfold Lives
  simp only [fogNode_touch_iff]
  constructor
  · rintro ⟨m, ⟨n, hn, rfl⟩, hd⟩
    exact ⟨n, hn, hd⟩
  · rintro ⟨n, hn, hd⟩
    exact ⟨_, ⟨n, hn, rfl⟩, hd⟩

/-- Changing a node does not change who lives if its standing stays. -/
theorem lives_onNode_iff {f : FogNode → FogNode} (hf : ∀ n, (f n).standing = n.standing) :
    (r.touch (.onNode node f)).Lives k ↔ r.Lives k := by
  rw [lives_touch_iff]
  simp only [Touch.standing_onNode hf]
  rfl

theorem stands_touch_iff
    (h : ∀ {n}, r.fogNode k = .ok n →
      (t.node k n).standing = n.standing ∧ (t.node k n).pending = n.pending) :
    (r.touch t).Stands k standing pending ↔ r.Stands k standing pending := by
  unfold Stands
  simp only [fogNode_touch_iff]
  constructor
  · rintro ⟨_, ⟨n, hn, rfl⟩, hs, hp⟩
    exact ⟨n, hn, (h hn).1.symm.trans hs, (h hn).2.symm.trans hp⟩
  · rintro ⟨n, hn, hs, hp⟩
    exact ⟨_, ⟨n, hn, rfl⟩, (h hn).1.trans hs, (h hn).2.trans hp⟩

end FogNet.Registry
