import FogNet.Proofs.Membership.Leaving

/-!
# What reactions leave alone

A touch is faithful if it changes of a node only how it moves and where it stands, of a head only
its lists, of a link only its traffic and of the broker only its list of active nodes. All touches
that joining and leaving amount to are faithful, and a faithful touch keeps a network wired: numbers
stay in place, sibling heads know each other, and the numbers kept in the broker's indices, at the
ends of links and in the link lists of nodes stand for entities of the right kinds.
-/

namespace FogNet

/-- The same device, perhaps elsewhere and in another puddle. -/
def FogNode.SameDevice (n m : FogNode) : Prop :=
  m = { n with
    motion := m.motion, standing := m.standing, buddies := m.buddies, pending := m.pending }

/-- The same head, perhaps with other members below it. -/
def PuddleHead.SamePost (h g : PuddleHead) : Prop :=
  g = { h with
    members := g.members, memberCharacteristics := g.memberCharacteristics,
    childPuddles := g.childPuddles, runningServices := g.runningServices }

/-- The same link, perhaps with other traffic. -/
def Link.SameChannel (l m : Link) : Prop :=
  m = { l with
    latency := m.latency, forwardQueue := m.forwardQueue, reverseQueue := m.reverseQueue }

/-- A link as it was when it was added. -/
def Link.original (l : Link) : Link := .create l.id l.first l.second l.baseLatency l.bandwidth

/-- The same broker, perhaps with other active nodes. -/
def Broker.SameIndices (b c : Broker) : Prop := c = { b with fogNodes := c.fogNodes }

theorem FogNode.SameDevice.trans {n m k : FogNode} (h : n.SameDevice m) (h' : m.SameDevice k) :
    n.SameDevice k := by
  unfold SameDevice at *
  rw [h', h]

theorem PuddleHead.SamePost.trans {h g k : PuddleHead} (hg : h.SamePost g) (hk : g.SamePost k) :
    h.SamePost k := by
  unfold SamePost at *
  rw [hk, hg]

theorem Link.SameChannel.trans {l m k : Link} (h : l.SameChannel m) (h' : m.SameChannel k) :
    l.SameChannel k := by
  unfold SameChannel at *
  rw [h', h]

theorem Broker.SameIndices.trans {b c d : Broker} (h : b.SameIndices c) (h' : c.SameIndices d) :
    b.SameIndices d := by
  unfold SameIndices at *
  rw [h', h]

/-! ## Fields that stay -/

namespace FogNode.SameDevice

variable {n m : FogNode}

theorem id (h : n.SameDevice m) : m.id = n.id := by unfold SameDevice at h; rw [h]

theorem characteristics (h : n.SameDevice m) : m.characteristics = n.characteristics := by
  unfold SameDevice at h
  rw [h]

theorem links (h : n.SameDevice m) : m.links = n.links := by unfold SameDevice at h; rw [h]

theorem level (h : n.SameDevice m) : m.level = n.level := by unfold SameDevice at h; rw [h]

end FogNode.SameDevice

namespace PuddleHead.SamePost

variable {h g : PuddleHead}

theorem id (hg : h.SamePost g) : g.id = h.id := by unfold SamePost at hg; rw [hg]

theorem buddies (hg : h.SamePost g) : g.buddies = h.buddies := by unfold SamePost at hg; rw [hg]

theorem parent (hg : h.SamePost g) : g.parent = h.parent := by unfold SamePost at hg; rw [hg]

theorem level (hg : h.SamePost g) : g.level = h.level := by unfold SamePost at hg; rw [hg]

theorem children (hg : h.SamePost g) : g.children = h.children := by
  unfold SamePost at hg
  rw [hg]

theorem coverage (hg : h.SamePost g) : g.coverage = h.coverage := by
  unfold SamePost at hg
  rw [hg]

end PuddleHead.SamePost

namespace Link.SameChannel

variable {l m : Link}

theorem id (h : l.SameChannel m) : m.id = l.id := by unfold SameChannel at h; rw [h]

theorem first (h : l.SameChannel m) : m.first = l.first := by unfold SameChannel at h; rw [h]

theorem second (h : l.SameChannel m) : m.second = l.second := by unfold SameChannel at h; rw [h]

theorem baseLatency (h : l.SameChannel m) : m.baseLatency = l.baseLatency := by
  unfold SameChannel at h
  rw [h]

theorem original (h : l.SameChannel m) : m.original = l.original := by
  unfold SameChannel at h
  rw [h]
  rfl

end Link.SameChannel

namespace Broker.SameIndices

variable {b c : Broker}

theorem id (h : b.SameIndices c) : c.id = b.id := by unfold SameIndices at h; rw [h]

theorem headsByLevel (h : b.SameIndices c) : c.headsByLevel = b.headsByLevel := by
  unfold SameIndices at h
  rw [h]

end Broker.SameIndices

namespace FogNode

theorem sameDevice_cutOff (n : FogNode) (l : List EntityId) : n.SameDevice (n.cutOff l) := by
  unfold cutOff
  split_ifs <;> rfl

theorem sameDevice_release (n : FogNode) (head : EntityId) : n.SameDevice (n.release head) := by
  unfold release
  split_ifs <;> rfl

theorem sameDevice_settleLeave (head : EntityId) (n : FogNode) :
    n.SameDevice (Change.settleLeave head n) := by
  unfold Change.settleLeave
  split
  · split_ifs <;> rfl
  · split_ifs <;> rfl
  · rfl

end FogNode

namespace Touch

/-- A touch that changes no more than reactions do. -/
structure Faithful (t : Touch) : Prop where
  /-- Nodes stay the same devices. -/
  node : ∀ k n, FogNode.SameDevice n (t.node k n)
  /-- Heads stay the same heads. -/
  head : ∀ k h, PuddleHead.SamePost h (t.head k h)
  /-- Links stay the same channels. -/
  link : ∀ k l, Link.SameChannel l (t.link k l)
  /-- The broker keeps its indices. -/
  broker : ∀ k b, Broker.SameIndices b (t.broker k b)

namespace Faithful

variable {s t : Touch} {id head node : EntityId}

theorem nothing : Faithful .nothing :=
  ⟨fun _ _ => rfl, fun _ _ => rfl, fun _ _ => rfl, fun _ _ => rfl⟩

theorem andThen (hs : s.Faithful) (ht : t.Faithful) : (s.andThen t).Faithful :=
  ⟨fun k n => (hs.node k n).trans (ht.node k _), fun k h => (hs.head k h).trans (ht.head k _),
    fun k l => (hs.link k l).trans (ht.link k _), fun k b => (hs.broker k b).trans (ht.broker k _)⟩

theorem onNode {f : FogNode → FogNode} (hf : ∀ n : FogNode, n.SameDevice (f n)) :
    (Touch.onNode id f).Faithful where
  node k n := by
    unfold Touch.onNode
    simp only
    split_ifs
    · exact hf n
    · rfl
  head _ _ := rfl
  link _ _ := rfl
  broker _ _ := rfl

theorem onHead {f : PuddleHead → PuddleHead} (hf : ∀ h : PuddleHead, h.SamePost (f h)) :
    (Touch.onHead id f).Faithful where
  node _ _ := rfl
  head k h := by
    unfold Touch.onHead
    simp only
    split_ifs
    · exact hf h
    · rfl
  link _ _ := rfl
  broker _ _ := rfl

theorem onLink {f : Link → Link} (hf : ∀ l : Link, l.SameChannel (f l)) :
    (Touch.onLink id f).Faithful where
  node _ _ := rfl
  head _ _ := rfl
  link k l := by
    unfold Touch.onLink
    simp only
    split_ifs
    · exact hf l
    · rfl
  broker _ _ := rfl

theorem onBroker {f : Broker → Broker} (hf : ∀ b : Broker, b.SameIndices (f b)) :
    (Touch.onBroker id f).Faithful where
  node _ _ := rfl
  head _ _ := rfl
  link _ _ := rfl
  broker k b := by
    unfold Touch.onBroker
    simp only
    split_ifs
    · exact hf b
    · rfl

theorem forgetting {ids : List EntityId} : (Touch.forgetting node ids).Faithful where
  node k n := by
    unfold Touch.forgetting
    simp only
    split_ifs <;> rfl
  head _ _ := rfl
  link _ _ := rfl
  broker _ _ := rfl

theorem samePost_relisting {parent : Option EntityId} {f : PuddleHead → PuddleHead}
    {members : List EntityId} (hf : ∀ h, PuddleHead.SamePost h (f h)) (k : EntityId)
    (g : PuddleHead) : g.SamePost (relisting head parent f members k g) := by
  unfold relisting
  simp only
  split_ifs
  · exact (hf g).trans rfl
  · rfl
  · exact hf g
  · rfl

theorem admission {h : PuddleHead} {offer : Characteristics} {friends : List EntityId} :
    (Touch.admission head node h offer friends).Faithful where
  node k n := by
    unfold Touch.admission
    simp only
    split_ifs <;> rfl
  head := samePost_relisting fun h => by
    unfold PuddleHead.addMember
    split_ifs <;> rfl
  link _ _ := rfl
  broker _ _ := rfl

theorem dismissal {h : PuddleHead} {strangers : List EntityId} :
    (Touch.dismissal head node h strangers).Faithful where
  node k n := by
    unfold Touch.dismissal
    simp only
    split_ifs
    · exact ((n.sameDevice_cutOff strangers).trans (FogNode.sameDevice_release _ head)).trans
        (FogNode.sameDevice_settleLeave head _)
    · rfl
    · rfl
  head := samePost_relisting fun h => rfl
  link _ _ := rfl
  broker _ _ := rfl

end Faithful

end Touch

namespace Registry

/-- Whether a link may end at a number: it stands for a node or a head. -/
def Sited (r : Registry) (k : EntityId) : Prop :=
  r.kind k = .ok .fogNode ∨ r.kind k = .ok .puddleHead

/-- Numbers stand for what they are kept as. -/
structure Wired (r : Registry) : Prop where
  /-- Each entity carries the number it is stored under. -/
  numbered : ∀ {k e}, r.entities.get? k = some e → e.id = k
  /-- Sibling heads know each other. -/
  siblings : ∀ {k h a}, r.puddleHead k = .ok h → a ∈ h.buddies →
    ∃ g, r.puddleHead a = .ok g ∧ k ∈ g.buddies
  /-- The broker's index of heads holds heads. -/
  indexed : ∀ {k b level a}, r.broker k = .ok b → a ∈ b.headsAt level → r.kind a = .ok .puddleHead
  /-- Links end at nodes and heads. -/
  ended : ∀ {k l}, r.link k = .ok l → r.Sited l.first ∧ r.Sited l.second
  /-- The links of a node are links. -/
  cabled : ∀ {k n a}, r.fogNode k = .ok n → a ∈ n.links → r.kind a = .ok .link

variable {r : Registry} {t : Touch} {k : EntityId}

theorem sited_touch_iff : (r.touch t).Sited k ↔ r.Sited k := by
  unfold Sited
  rw [kind_touch]

namespace Wired

theorem toNumbered (hw : r.Wired) : r.Numbered := fun _ _ => hw.numbered

theorem id_fogNode (hw : r.Wired) {n : FogNode} (hn : r.fogNode k = .ok n) : n.id = k :=
  hw.toNumbered.id_fogNode hn

theorem id_puddleHead (hw : r.Wired) {h : PuddleHead} (hh : r.puddleHead k = .ok h) : h.id = k :=
  hw.toNumbered.id_puddleHead hh

/-- A touch keeps a network wired if what it leaves of each record is. -/
theorem evolve (hw : r.Wired) (hid : ∀ k e, (t.entity k e).id = e.id)
    (hsiblings : ∀ {k h a}, r.puddleHead k = .ok h → a ∈ (t.head k h).buddies →
      ∃ g, r.puddleHead a = .ok g ∧ k ∈ (t.head a g).buddies)
    (hindexed : ∀ {k b level a}, r.broker k = .ok b → a ∈ (t.broker k b).headsAt level →
      r.kind a = .ok .puddleHead)
    (hended : ∀ {k l}, r.link k = .ok l → r.Sited (t.link k l).first ∧ r.Sited (t.link k l).second)
    (hcabled : ∀ {k n a}, r.fogNode k = .ok n → a ∈ (t.node k n).links → r.kind a = .ok .link) :
    (r.touch t).Wired where
  numbered {k e} he := by
    rw [get?_touch, Option.map_eq_some_iff] at he
    obtain ⟨d, hd, rfl⟩ := he
    rw [hid, hw.numbered hd]
  siblings {k g a} hg ha := by
    obtain ⟨h, hh, rfl⟩ := puddleHead_touch_iff.1 hg
    obtain ⟨h', hh', hk⟩ := hsiblings hh ha
    exact ⟨_, puddleHead_touch hh', hk⟩
  indexed {k c level a} hc ha := by
    obtain ⟨b, hb, rfl⟩ := broker_touch_iff.1 hc
    rw [kind_touch]
    exact hindexed hb ha
  ended {k m} hm := by
    obtain ⟨l, hl, rfl⟩ := link_touch_iff.1 hm
    rw [sited_touch_iff, sited_touch_iff]
    exact hended hl
  cabled {k m a} hm ha := by
    obtain ⟨n, hn, rfl⟩ := fogNode_touch_iff.1 hm
    rw [kind_touch]
    exact hcabled hn ha

/-- A faithful touch keeps a network wired. -/
theorem touch (hw : r.Wired) (ht : t.Faithful) : (r.touch t).Wired := by
  refine hw.evolve (fun k e => ?_) (fun {k h a} hh ha => ?_) (fun {k b level a} hb ha => ?_)
    (fun {k l} hl => ?_) fun {k n a} hn ha => ?_
  · cases e with
    | fogNode n => exact (ht.node k n).id
    | puddleHead h => exact (ht.head k h).id
    | link l => exact (ht.link k l).id
    | broker b => exact (ht.broker k b).id
  · rw [(ht.head k h).buddies] at ha
    obtain ⟨g, hg, hk⟩ := hw.siblings hh ha
    exact ⟨g, hg, (ht.head a g).buddies ▸ hk⟩
  · unfold Broker.headsAt at ha
    rw [(ht.broker k b).headsByLevel] at ha
    exact hw.indexed hb ha
  · rw [(ht.link k l).first, (ht.link k l).second]
    exact hw.ended hl
  · rw [(ht.node k n).links] at ha
    exact hw.cabled hn ha

end Wired

end Registry

end FogNet
