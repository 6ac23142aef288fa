import FogNet.Proofs.Membership.Joining
import FogNet.Proofs.Topology.Growth
import FogNet.Topology.Builder

/-!
# Building a network is growth

Every step of a builder, whether it succeeds or fails, leaves a registry that has grown from the one
before (`Grown`): it adds an entity, a link or a place in the tree of heads, and moves nobody.
-/

namespace FogNet

open Registry

variable {r q : Registry} {α β : Type} {id : EntityId}

/-! ## Touches of one record -/

namespace Registry.Grown

/-- Changing of a node only its links is growth. -/
theorem onNode {f : FogNode → FogNode} (hw : r.Wired) (hc : r.Copied) (hid : ∀ n, (f n).id = n.id)
    (hsame : ∀ n : FogNode, n.SameMember (f n))
    (hlinks : ∀ n a, a ∈ (f n).links → a ∈ n.links ∨ r.kind a = .ok .link) :
    Grown r (r.touch (.onNode id f)) := by
  refine Grown.touch (hw.evolve (fun k e => ?_) hw.siblings hw.indexed hw.ended ?_)
    (Copied.keep hc fun _ _ => ⟨rfl, rfl, rfl⟩) (fun k m => ?_) (fun _ _ => ⟨rfl, rfl⟩)
    fun hp => hp.headless rfl
  · cases e with
    | fogNode n =>
      unfold Touch.onNode Touch.entity
      simp only
      split_ifs
      · exact hid n
      · rfl
    | _ => rfl
  · intro k m a hm ha
    unfold Touch.onNode at ha
    simp only at ha
    split_ifs at ha
    · exact (hlinks m a ha).elim (hw.cabled hm) fun hk => hk
    · exact hw.cabled hm ha
  · unfold Touch.onNode
    simp only
    split_ifs
    · exact hsame m
    · exact ⟨rfl, rfl, rfl, rfl⟩

/-- Changing of a head only its links or children is growth. -/
theorem onHead {f : PuddleHead → PuddleHead} (hw : r.Wired) (hc : r.Copied)
    (hf : ∀ h : PuddleHead, (f h).id = h.id ∧ (f h).parent = h.parent ∧ (f h).buddies = h.buddies ∧
      (f h).childPuddles = h.childPuddles ∧ (f h).runningServices = h.runningServices ∧
      h.SameList (f h)) :
    Grown r (r.touch (.onHead id f)) := by
  have hsame : ∀ k (h : PuddleHead), ((Touch.onHead id f).head k h).id = h.id ∧
      ((Touch.onHead id f).head k h).parent = h.parent ∧
      ((Touch.onHead id f).head k h).buddies = h.buddies ∧
      ((Touch.onHead id f).head k h).childPuddles = h.childPuddles ∧
      ((Touch.onHead id f).head k h).runningServices = h.runningServices ∧
      h.SameList ((Touch.onHead id f).head k h) := by
    intro k h
    unfold Touch.onHead
    simp only
    split_ifs
    · exact hf h
    · exact ⟨rfl, rfl, rfl, rfl, rfl, rfl, rfl⟩
  refine Grown.touch (hw.evolve (fun k e => ?_) (fun {k h a} hh ha => ?_) hw.indexed hw.ended
    hw.cabled) (Copied.keep hc fun k h => ?_) (fun _ _ => ⟨rfl, rfl, rfl, rfl⟩) (fun k h => ?_)
    fun hp => hp.keep fun k h => ?_
  · cases e with
    | puddleHead h => exact (hsame k h).1
    | _ => rfl
  · rw [(hsame k h).2.2.1] at ha
    obtain ⟨g, hg, hk⟩ := hw.siblings hh ha
    exact ⟨g, hg, (hsame a g).2.2.1 ▸ hk⟩
  · exact ⟨(hsame k h).2.1, (hsame k h).2.2.2.2.2.1, (hsame k h).2.2.2.1⟩
  · exact (hsame k h).2.2.2.2.2
  · obtain ⟨-, h1, -, h2, h3, h4, -⟩ := hsame k h
    exact ⟨h1, h4, h2, h3⟩

/-- Changing the broker is growth if its index of heads holds heads. -/
theorem onBroker {f : Broker → Broker} (hw : r.Wired) (hc : r.Copied) (hid : ∀ b, (f b).id = b.id)
    (hf : ∀ b level a, a ∈ (f b).headsAt level → a ∈ b.headsAt level ∨ r.kind a = .ok .puddleHead) :
    Grown r (r.touch (.onBroker id f)) := by
  refine Grown.touch (hw.evolve (fun k e => ?_) hw.siblings ?_ hw.ended hw.cabled)
    (Copied.keep hc fun _ _ => ⟨rfl, rfl, rfl⟩) (fun _ _ => ⟨rfl, rfl, rfl, rfl⟩)
    (fun _ _ => ⟨rfl, rfl⟩) fun hp => hp.headless rfl
  · cases e with
    | broker b =>
      unfold Touch.onBroker Touch.entity
      simp only
      split_ifs
      · exact hid b
      · rfl
    | _ => rfl
  · intro k b level a hb ha
    unfold Touch.onBroker at ha
    simp only at ha
    split_ifs at ha
    · exact (hf b level a ha).elim (hw.indexed hb) fun hk => hk
    · exact hw.indexed hb ha

end Registry.Grown

/-! ## Steps that grow a registry -/

namespace Change

/-- One step after another grows a registry if both do. -/
theorem grown_bind {x : Change α} {f : α → Change β} (hx : Grown r (stateOf (x r)))
    (hf : ∀ a q, x r = .ok a q → Grown r q → Grown q (stateOf (f a q))) :
    Grown r (stateOf ((x >>= f) r)) := by
  cases h : x r with
  | ok a q =>
    rw [bind_of_ok h]
    rw [h] at hx
    exact hx.trans (hf a q h hx)
  | error fault q =>
    rw [bind_of_error h]
    rwa [h] at hx

/-- A call that is refused changes nothing. -/
theorem grown_guard {c : Prop} [Decidable c] {fault : Fault} {k : Unit → Change α} (hw : r.Wired)
    (hc : r.Copied) (hk : ¬ c → Grown r (stateOf (k () r))) :
    Grown r (stateOf ((if c then Change.fail fault >>= k else k () : Change α) r)) := by
  split_ifs with h
  · exact .refl hw hc
  · exact hk h

theorem read_eq_ok_iff {look : Registry → Except Fault α} {a : α} :
    read look r = .ok a q ↔ look r = .ok a ∧ q = r := by
  unfold read
  cases look r <;> simp [eq_comm]

theorem grown_read {look : Registry → Except Fault α} (hw : r.Wired) (hc : r.Copied) :
    Grown r (stateOf (read look r)) := by
  unfold read
  cases look r <;> exact .refl hw hc

theorem grown_allocate (hw : r.Wired) (hc : r.Copied) : Grown r (stateOf (allocate r)) :=
  ⟨⟨hw.numbered, hw.siblings, hw.indexed, hw.ended, hw.cabled⟩, hc, (Grown.refl hw hc).node,
    (Grown.refl hw hc).head, fun hk => hk, fun hp => ⟨hp.copies, hp.services⟩⟩

theorem insert_eq_ok_iff {e : Entity} {u : Unit} :
    insert id e r = .ok u q ↔ r.contains id = false ∧ q = r.put id e := by
  unfold insert Registry.insert
  cases r.contains id <;> simp [eq_comm]

theorem grown_insert {e : Entity} (hw : r.Wired) (hc : r.Copied) (he : r.Newborn id e) :
    Grown r (stateOf (insert id e r)) := by
  unfold insert Registry.insert
  cases hfree : r.contains id with
  | true => exact .refl hw hc
  | false => exact .put hw hc hfree he

theorem grown_updateBroker {f : Broker → Broker} (hw : r.Wired) (hc : r.Copied)
    (hid : ∀ b, (f b).id = b.id)
    (hf : ∀ b level a, a ∈ (f b).headsAt level → a ∈ b.headsAt level ∨ r.kind a = .ok .puddleHead) :
    Grown r (stateOf (updateBroker id f r)) := by
  cases hb : r.broker id with
  | error fault =>
    unfold updateBroker
    rw [bind_of_error (read_of_error hb)]
    exact .refl hw hc
  | ok b =>
    rw [updateBroker_of_ok f hb]
    exact .onBroker hw hc hid hf

/-- Noting a link at a node or a head is growth. -/
theorem grown_attachLink {link : EntityId} (hw : r.Wired) (hc : r.Copied) (hsite : r.Sited id)
    (hlink : r.kind link = .ok .link) :
    Grown r (stateOf (updateEntity id (·.attachLink link) r)) := by
  rcases hsite with hk | hk
  · obtain ⟨n, hn⟩ := kind_eq_fogNode_iff.1 hk
    have heq : updateEntity id (·.attachLink link) r = updateNode id (·.attachLink link) r := by
      unfold updateEntity updateNode
      rw [bind_of_ok (fogNode_of_ok hn),
        bind_of_ok (read_of_ok (entity_eq_ok_iff.2 (fogNode_eq_ok_iff.1 hn)))]
      rfl
    rw [heq, updateNode_of_ok _ hn]
    refine .onNode hw hc (fun _ => rfl) (fun _ => ⟨rfl, rfl, rfl, rfl⟩) fun m a ha => ?_
    rcases SortedSet.mem_insert.1 ha with rfl | ha
    · exact .inr hlink
    · exact .inl ha
  · obtain ⟨h, hh⟩ := kind_eq_puddleHead_iff.1 hk
    have heq : updateEntity id (·.attachLink link) r = updateHead id (·.attachLink link) r := by
      unfold updateEntity updateHead
      rw [bind_of_ok (puddleHead_of_ok hh),
        bind_of_ok (read_of_ok (entity_eq_ok_iff.2 (puddleHead_eq_ok_iff.1 hh)))]
      rfl
    rw [heq, updateHead_of_ok _ hh]
    exact .onHead hw hc fun _ => ⟨rfl, rfl, rfl, rfl, rfl, rfl, rfl⟩

end Change

/-! ## The tree of heads -/

namespace Touch

/-- Two heads become siblings. -/
def siblinghood (a b : EntityId) : Touch :=
  (Touch.onHead a (·.addBuddy b)).andThen (.onHead b (·.addBuddy a))

/-- A head is put below another one. -/
def adoption (parent child : EntityId) (members : List EntityId) : Touch :=
  (Touch.onHead parent (·.addChild child members)).andThen (.onHead child (·.setParent parent))

variable {a b k x : EntityId} {h : PuddleHead}

theorem mem_addBuddy : x ∈ (h.addBuddy b).buddies ↔ x ∈ h.buddies ∨ x = b ∧ b ≠ h.id := by
  unfold PuddleHead.addBuddy
  split_ifs with hb
  · simp [hb]
  · rw [SortedSet.mem_insert]
    tauto

theorem mem_siblinghood (hid : h.id = k) :
    x ∈ ((siblinghood a b).head k h).buddies ↔
      x ∈ h.buddies ∨ x ≠ k ∧ (k = a ∧ x = b ∨ k = b ∧ x = a) := by
  have hid' : (h.addBuddy b).id = k := by
    unfold PuddleHead.addBuddy
    split_ifs <;> exact hid
  unfold siblinghood andThen onHead
  simp only
  by_cases ha : k = a
  · by_cases hb : k = b
    · rw [if_pos hb, if_pos ha, mem_addBuddy, mem_addBuddy, hid, hid']
      subst ha hb
      tauto
    · rw [if_neg hb, if_pos ha, mem_addBuddy, hid]
      grind
  · by_cases hb : k = b
    · rw [if_pos hb, if_neg ha, mem_addBuddy, hid]
      grind
    · rw [if_neg hb, if_neg ha]
      tauto

theorem siblinghood_keeps (k : EntityId) (h : PuddleHead) :
    ((siblinghood a b).head k h).id = h.id ∧ ((siblinghood a b).head k h).parent = h.parent ∧
      ((siblinghood a b).head k h).members = h.members ∧
      ((siblinghood a b).head k h).childPuddles = h.childPuddles ∧
      ((siblinghood a b).head k h).memberCharacteristics = h.memberCharacteristics ∧
      ((siblinghood a b).head k h).runningServices = h.runningServices := by
  unfold siblinghood andThen onHead PuddleHead.addBuddy
  simp only
  split_ifs <;> exact ⟨rfl, rfl, rfl, rfl, rfl, rfl⟩

variable {parent child : EntityId} {members : List EntityId}

theorem adoption_keeps (parent child : EntityId) (members : List EntityId) (k : EntityId)
    (h : PuddleHead) :
    ((adoption parent child members).head k h).id = h.id ∧
      ((adoption parent child members).head k h).level = h.level ∧
      ((adoption parent child members).head k h).buddies = h.buddies ∧
      ((adoption parent child members).head k h).members = h.members ∧
      ((adoption parent child members).head k h).memberCharacteristics =
        h.memberCharacteristics ∧
      ((adoption parent child members).head k h).runningServices = h.runningServices := by
  unfold adoption andThen onHead
  simp only
  split_ifs <;> exact ⟨rfl, rfl, rfl, rfl, rfl, rfl⟩

theorem childPuddles_adoption (k : EntityId) (h : PuddleHead) :
    ((adoption parent child members).head k h).childPuddles =
      if k = parent then h.childPuddles.insert child members else h.childPuddles := by
  unfold adoption andThen onHead
  simp only
  split_ifs <;> rfl

theorem parent_adoption (k : EntityId) (h : PuddleHead) :
    ((adoption parent child members).head k h).parent =
      if k = child then some parent else h.parent := by
  unfold adoption andThen onHead
  simp only
  split_ifs <;> rfl

end Touch

namespace Registry.Grown

variable {a b parent child : EntityId} {g h : PuddleHead}

/-- Making two heads siblings is growth. -/
theorem siblinghood (hw : r.Wired) (hc : r.Copied) (ha : r.puddleHead a = .ok g)
    (hb : r.puddleHead b = .ok h) : Grown r (r.touch (.siblinghood a b)) := by
  refine Grown.touch (hw.evolve (fun k e => ?_) (fun {k f x} hf hx => ?_) hw.indexed hw.ended
    hw.cabled) (Copied.keep hc fun k f => ?_) (fun _ _ => ⟨rfl, rfl, rfl, rfl⟩) (fun k f => ?_)
    fun hp => hp.keep fun k f => ?_
  · cases e with
    | puddleHead f => exact (Touch.siblinghood_keeps k f).1
    | _ => rfl
  · rcases (Touch.mem_siblinghood (hw.id_puddleHead hf)).1 hx with
      hx | ⟨hne, ⟨rfl, rfl⟩ | ⟨rfl, rfl⟩⟩
    · obtain ⟨y, hy, hk⟩ := hw.siblings hf hx
      exact ⟨y, hy, (Touch.mem_siblinghood (hw.id_puddleHead hy)).2 (.inl hk)⟩
    · exact ⟨h, hb, (Touch.mem_siblinghood (hw.id_puddleHead hb)).2
        (.inr ⟨Ne.symm hne, .inr ⟨rfl, rfl⟩⟩)⟩
    · exact ⟨g, ha, (Touch.mem_siblinghood (hw.id_puddleHead ha)).2
        (.inr ⟨Ne.symm hne, .inl ⟨rfl, rfl⟩⟩)⟩
  · obtain ⟨-, h1, h2, h3, -⟩ := Touch.siblinghood_keeps (a := a) (b := b) k f
    exact ⟨h1, h2, h3⟩
  · obtain ⟨-, -, h1, -, h2, -⟩ := Touch.siblinghood_keeps (a := a) (b := b) k f
    exact ⟨h1, h2⟩
  · obtain ⟨-, h1, h2, h3, -, h4⟩ := Touch.siblinghood_keeps (a := a) (b := b) k f
    exact ⟨h1, h2, h3, h4⟩

/-- A new parent has a copy of the list of its child. -/
theorem copied_adoption (hc : r.Copied) (hp : r.puddleHead parent = .ok g)
    (hh : r.puddleHead child = .ok h) : (r.touch (.adoption parent child h.members)).Copied := by
  intro k f' p hf' hp'
  obtain ⟨f, hf, rfl⟩ := puddleHead_touch_iff.1 hf'
  obtain ⟨-, -, -, hmembers, -⟩ := Touch.adoption_keeps parent child h.members k f
  rw [Touch.parent_adoption] at hp'
  rw [hmembers]
  by_cases hk : k = child
  · subst hk
    rw [if_pos rfl] at hp'
    obtain rfl := Option.some.inj hp'
    refine ⟨_, puddleHead_touch hp, ?_⟩
    rw [Touch.childPuddles_adoption, if_pos rfl, SortedMap.get?_insert_self, puddleHead_inj hf hh]
  · rw [if_neg hk] at hp'
    obtain ⟨y, hy, hcopy⟩ := hc hf hp'
    refine ⟨_, puddleHead_touch hy, ?_⟩
    rw [Touch.childPuddles_adoption]
    split_ifs
    · rw [SortedMap.get?_insert, if_neg hk, hcopy]
    · exact hcopy

/-- The adopted head has had no parent, so nobody else has a copy of its list. -/
theorem pruned_adoption (hr : r.Pruned) (hh : r.puddleHead child = .ok h)
    (hfree : h.parent = none) : (r.touch (.adoption parent child h.members)).Pruned := by
  refine ⟨fun {a f' c l} hf' hl => ?_, fun {a f' m l} hf' hl => ?_⟩
  · obtain ⟨f, hf, rfl⟩ := puddleHead_touch_iff.1 hf'
    by_cases hchild : a = parent ∧ c = child
    · refine ⟨_, puddleHead_touch (hchild.2 ▸ hh), ?_⟩
      rw [Touch.parent_adoption, if_pos hchild.2, hchild.1]
    · have hold : f.childPuddles.get? c = some l := by
        rw [Touch.childPuddles_adoption] at hl
        split_ifs at hl with ha
        · rwa [SortedMap.get?_insert, if_neg fun hc => hchild ⟨ha, hc⟩] at hl
        · exact hl
      obtain ⟨y, hy, hyp⟩ := hr.copies hf hold
      refine ⟨_, puddleHead_touch hy, ?_⟩
      rw [Touch.parent_adoption, if_neg, hyp]
      rintro rfl
      rw [puddleHead_inj hy hh, hfree] at hyp
      cases hyp
  · obtain ⟨f, hf, rfl⟩ := puddleHead_touch_iff.1 hf'
    obtain ⟨-, -, -, hmembers, -, hservices⟩ := Touch.adoption_keeps parent child h.members a f
    rw [hservices] at hl
    rw [hmembers]
    exact hr.services hf hl

/-- Putting a head below another one with a copy of its list is growth. -/
theorem adoption (hw : r.Wired) (hc : r.Copied) (hp : r.puddleHead parent = .ok g)
    (hh : r.puddleHead child = .ok h) (hfree : h.parent = none) :
    Grown r (r.touch (.adoption parent child h.members)) := by
  refine Grown.touch (hw.evolve (fun k e => ?_) (fun {k f x} hf hx => ?_) hw.indexed hw.ended
    hw.cabled) (copied_adoption hc hp hh) (fun _ _ => ⟨rfl, rfl, rfl, rfl⟩) (fun k f => ?_)
    fun hr => pruned_adoption hr hh hfree
  · cases e with
    | puddleHead f => exact (Touch.adoption_keeps _ _ _ k f).1
    | _ => rfl
  · rw [(Touch.adoption_keeps _ _ _ k f).2.2.1] at hx
    obtain ⟨y, hy, hk⟩ := hw.siblings hf hx
    exact ⟨y, hy, (Touch.adoption_keeps _ _ _ x y).2.2.1 ▸ hk⟩
  · obtain ⟨-, -, -, hmembers, hcharacteristics, -⟩ := Touch.adoption_keeps _ _ _ k f
    exact ⟨hmembers, hcharacteristics⟩

end Registry.Grown

namespace Change

variable {parent child : EntityId} {above below : PuddleHead}

/-- Make a head a sibling of some others. -/
def siblings (l : List EntityId) (child : EntityId) : Change Unit :=
  l.forM fun sibling => do
    updateHead sibling (·.addBuddy child)
    updateHead child (·.addBuddy sibling)

/-- A new child becomes a sibling of the children already there and is put nowhere by that. A
failure on the way leaves whole pairs of siblings behind. -/
theorem grown_siblings (l : List EntityId) (hw : r.Wired) (hc : r.Copied)
    (hchild : r.puddleHead child = .ok below) :
    Grown r (stateOf (siblings l child r)) ∧
      ∃ h, (stateOf (siblings l child r)).puddleHead child = .ok h ∧ h.parent = below.parent := by
  induction l generalizing r below with
  | nil => exact ⟨.refl hw hc, below, hchild, rfl⟩
  | cons sibling rest ih =>
    have hcons : siblings (sibling :: rest) child =
        ((updateHead sibling (·.addBuddy child) >>= fun _ =>
          updateHead child (·.addBuddy sibling)) >>= fun _ => siblings rest child) := rfl
    rw [hcons]
    cases hs : r.puddleHead sibling with
    | error fault =>
      have hfail : (updateHead sibling (·.addBuddy child) >>= fun _ =>
          updateHead child (·.addBuddy sibling)) r = .error fault r :=
        bind_of_error (updateHead_of_error _ hs)
      rw [bind_of_error hfail]
      exact ⟨.refl hw hc, below, hchild, rfl⟩
    | ok g =>
      have hpair : (updateHead sibling (·.addBuddy child) >>= fun _ =>
          updateHead child (·.addBuddy sibling)) r =
            .ok () (r.touch (.siblinghood sibling child)) := by
        rw [bind_of_ok (updateHead_of_ok _ hs), updateHead_of_ok _ (puddleHead_touch hchild),
          touch_touch]
        rfl
      rw [bind_of_ok hpair]
      have hgrown := Grown.siblinghood hw hc hs hchild
      obtain ⟨hrest, h, hh, hparent⟩ := ih hgrown.wired hgrown.copied (puddleHead_touch hchild)
      exact ⟨hgrown.trans hrest, h, hh, hparent.trans (Touch.siblinghood_keeps child below).2.1⟩

/-- Putting a head below another one is growth. -/
theorem grown_adoptChild (hw : r.Wired) (hc : r.Copied) :
    Grown r (stateOf (adoptChild parent child r)) := by
  unfold adoptChild
  refine grown_guard hw hc fun _ => ?_
  refine grown_bind (grown_read hw hc) fun above q hq _ => ?_
  obtain ⟨habove, rfl⟩ := read_eq_ok_iff.1 hq
  refine grown_bind (grown_read hw hc) fun below q hq _ => ?_
  obtain ⟨hbelow, rfl⟩ := read_eq_ok_iff.1 hq
  refine grown_guard hw hc fun hparent => ?_
  refine grown_guard hw hc fun _ => ?_
  obtain ⟨hgrown, hkept⟩ := grown_siblings above.children hw hc hbelow
  refine grown_bind hgrown fun _ q (hsiblings : siblings above.children child _ = .ok _ q) hq => ?_
  rw [hsiblings] at hkept
  obtain ⟨g, hg, -⟩ := hq.head_of_old habove
  obtain ⟨h, hh, hsame⟩ := hq.head_of_old hbelow
  obtain ⟨h', hh', hfree⟩ := hkept
  rw [bind_of_ok (updateHead_of_ok _ hg), updateHead_of_ok _ (puddleHead_touch hh), touch_touch,
    ← hsame.1]
  refine Grown.adoption hq.wired hq.copied hg hh ?_
  rw [puddleHead_inj hh hh', hfree]
  exact Option.not_isSome_iff_eq_none.1 hparent

end Change

/-! ## The calls on a builder -/

namespace NodeSpec

/-- Where a node starts, its position brought into its rectangle. -/
def start (spec : NodeSpec) : Point Float :=
  ⟨wrapAxis spec.position.x spec.bounds.x spec.bounds.width,
    wrapAxis spec.position.y spec.bounds.y spec.bounds.height⟩

/-- Whether a node is going to move. -/
def mobile (spec : NodeSpec) : Bool :=
  match spec.plan with
  | .stationary => false
  | .velocity _ => true
  | .speed _ => true

/-- A motion that begins as a node is described. -/
structure Begins (spec : NodeSpec) (motion : Motion Float) : Prop where
  /-- It begins where the node starts. -/
  position : motion.position = spec.start
  /-- It stays in the node's rectangle. -/
  bounds : motion.bounds = spec.bounds
  /-- It goes on if the node is going to move. -/
  mobile : motion.mobile = spec.mobile
  /-- Nothing has moved yet. -/
  rested : motion.lastUpdate = 0

end NodeSpec

namespace Builder

open Change

theorem kind_put_self (r : Registry) (id : EntityId) (e : Entity) :
    (r.put id e).kind id = .ok e.kind :=
  kind_eq_ok_iff.2 ⟨e, by rw [get?_put, if_pos rfl], rfl⟩

/-- Storing a newborn and having the broker note it is growth. -/
theorem grown_register (broker : EntityId) (make : EntityId → Entity)
    (note : EntityId → Broker → Broker) (hw : r.Wired) (hc : r.Copied)
    (hmake : ∀ id q, Newborn q id (make id)) (hid : ∀ id b, (note id b).id = b.id)
    (hnote : ∀ id b level a, a ∈ (note id b).headsAt level →
      a ∈ b.headsAt level ∨ a = id ∧ (make id).kind = .puddleHead) :
    Grown r (stateOf (register broker make note r)) := by
  unfold register
  refine grown_bind (grown_allocate hw hc) fun id q _ hq => ?_
  refine grown_bind (grown_insert hq.wired hq.copied (hmake id q)) fun _ p hp hqp => ?_
  obtain ⟨-, rfl⟩ := insert_eq_ok_iff.1 hp
  refine grown_bind (grown_updateBroker hqp.wired hqp.copied (hid id) fun b level a ha => ?_)
    fun _ s _ hs => .refl hs.wired hs.copied
  refine (hnote id b level a ha).imp_right ?_
  rintro ⟨rfl, hk⟩
  rw [kind_put_self, hk]

theorem checkEnd_eq_ok {a b e : EntityId} {u : Unit} (h : checkEnd a b e r = .ok u q) :
    q = r ∧ r.Sited e := by
  unfold checkEnd at h
  obtain ⟨κ, p, hκ, h⟩ := bind_eq_ok_iff.1 h
  obtain ⟨hκ, rfl⟩ := read_eq_ok_iff.1 hκ
  cases κ with
  | fogNode =>
    cases h
    exact ⟨rfl, .inl hκ⟩
  | puddleHead =>
    cases h
    exact ⟨rfl, .inr hκ⟩
  | link => cases h
  | broker => cases h

theorem grown_checkEnd {a b e : EntityId} (hw : r.Wired) (hc : r.Copied) :
    Grown r (stateOf (checkEnd a b e r)) := by
  unfold checkEnd
  refine grown_bind (grown_read hw hc) fun κ q _ hq => ?_
  cases κ <;> exact .refl hq.wired hq.copied

theorem sited_of_grown (h : Grown r q) {k : EntityId} (hk : r.Sited k) : q.Sited k :=
  hk.imp h.kind h.kind

/-- Adding a link is growth. -/
theorem grown_addLink (broker a b : EntityId) (latency bandwidth : Float) (hw : r.Wired)
    (hc : r.Copied) : Grown r (stateOf (addLink broker a b latency bandwidth r)) := by
  unfold addLink
  refine grown_guard hw hc fun _ => ?_
  refine grown_guard hw hc fun _ => ?_
  refine grown_bind (grown_checkEnd hw hc) fun _ r ha hr => ?_
  refine grown_bind (grown_checkEnd hr.wired hr.copied) fun _ r hb hr => ?_
  obtain ⟨rfl, ha⟩ := checkEnd_eq_ok ha
  obtain ⟨rfl, hb⟩ := checkEnd_eq_ok hb
  refine grown_bind (grown_allocate hr.wired hr.copied) fun id q _ hq => ?_
  have hborn : q.Newborn id (.link (.create id a b latency bandwidth)) :=
    ⟨rfl, sited_of_grown hq ha, sited_of_grown hq hb⟩
  refine grown_bind (grown_insert hq.wired hq.copied hborn) fun _ p hp hqp => ?_
  obtain ⟨-, rfl⟩ := insert_eq_ok_iff.1 hp
  have hlink := kind_put_self q id (.link (.create id a b latency bandwidth))
  have ha' := sited_of_grown (hq.trans hqp) ha
  have hb' := sited_of_grown (hq.trans hqp) hb
  refine grown_bind (grown_attachLink hqp.wired hqp.copied ha' hlink) fun _ s _ hs => ?_
  refine grown_bind (grown_attachLink hs.wired hs.copied (sited_of_grown hs hb') (hs.kind hlink))
    fun _ s' _ hs' => ?_
  exact grown_bind (grown_updateBroker hs'.wired hs'.copied (fun _ => rfl) fun _ _ _ h => .inl h)
    fun _ _ _ h => .refl h.wired h.copied

/-- One builder comes from another by additions. -/
structure Extended (b c : Builder) : Prop where
  /-- The registry has grown. -/
  registry : Grown b.registry c.registry
  /-- The broker stays. -/
  broker : c.broker = b.broker
  /-- The constants stay. -/
  settings : c.settings = b.settings
  /-- No message is added. -/
  scripted : c.scripted = b.scripted

variable {b : Builder}

theorem extended_change {step : Change α} (h : Grown b.registry (stateOf (step b.registry))) :
    b.Extended (stateOf (change step b)) := by
  unfold change
  cases hs : step b.registry with
  | ok a q =>
    rw [hs] at h
    exact ⟨h, rfl, rfl, rfl⟩
  | error fault q =>
    rw [hs] at h
    exact ⟨h, rfl, rfl, rfl⟩

theorem extended_puddleHead (hw : b.registry.Wired) (hc : b.registry.Copied) (name : String)
    (level : Level) (coverage : Polygon Float) (anchor : Point Float) :
    b.Extended (stateOf (puddleHead name level coverage anchor b)) := by
  refine extended_change (grown_register _ _ _ hw hc (fun id q => ?_) (fun id b => rfl) ?_)
  · exact ⟨rfl, ⟨rfl, rfl⟩, rfl, rfl, rfl, rfl⟩
  · intro id b l a ha
    unfold Broker.headsAt Broker.registerHead at ha
    simp only [SortedMap.get?_insert] at ha
    split_ifs at ha with hl
    · subst hl
      rcases List.mem_append.1 ha with ha | ha
      · exact .inl ha
      · exact .inr ⟨List.mem_singleton.1 ha, rfl⟩
    · exact .inl ha

theorem extended_attach (hw : b.registry.Wired) (hc : b.registry.Copied) (child parent : EntityId) :
    b.Extended (stateOf (attach child parent b)) :=
  extended_change (grown_adoptChild hw hc)

/-- Adding a node is storing it, once its heading is drawn. -/
theorem fogNode_eq {spec : NodeSpec} {motion : Motion Float} {c : Builder}
    (hmotion : motionOf spec b = .ok motion c) : fogNode spec b = change (register c.broker
      (fun id => .fogNode (.create id spec.name spec.level motion spec.characteristics))
      fun id broker => broker.registerNode id) c := by
  show EStateM.bind _ _ b = _
  unfold EStateM.bind
  rw [hmotion]
  rfl

/-- A new node begins as it is described. -/
theorem exists_motionOf_eq (spec : NodeSpec) (b : Builder) : ∃ motion generator,
    spec.Begins motion ∧ motionOf spec b = .ok motion { b with generator } := by
  unfold motionOf
  cases hplan : spec.plan with
  | stationary => exact ⟨_, _, ⟨rfl, rfl, by rw [NodeSpec.mobile, hplan]; rfl, rfl⟩, rfl⟩
  | velocity v => exact ⟨_, _, ⟨rfl, rfl, by rw [NodeSpec.mobile, hplan]; rfl, rfl⟩, rfl⟩
  | speed s => exact ⟨_, _, ⟨rfl, rfl, by rw [NodeSpec.mobile, hplan]; rfl, rfl⟩, rfl⟩

theorem exists_fogNode_eq (spec : NodeSpec) (b : Builder) : ∃ motion generator,
    spec.Begins motion ∧ fogNode spec b = change (register b.broker
      (fun id => .fogNode (.create id spec.name spec.level motion spec.characteristics))
      fun id broker => broker.registerNode id) { b with generator } := by
  obtain ⟨motion, generator, hbegins, hmotion⟩ := exists_motionOf_eq spec b
  exact ⟨motion, generator, hbegins, fogNode_eq hmotion⟩

theorem extended_fogNode (hw : b.registry.Wired) (hc : b.registry.Copied) (spec : NodeSpec) :
    b.Extended (stateOf (fogNode spec b)) := by
  obtain ⟨motion, generator, -, hstart⟩ := exists_fogNode_eq spec b
  rw [hstart]
  have hreg := extended_change (b := { b with generator }) (grown_register b.broker
    (fun id => .fogNode (.create id spec.name spec.level motion spec.characteristics))
    (fun id broker => broker.registerNode id) hw hc
    (fun id q => ⟨rfl, ⟨rfl, rfl, rfl⟩, rfl⟩) (fun _ _ => rfl) fun _ _ _ _ ha => .inl ha)
  exact ⟨hreg.registry, hreg.broker, hreg.settings, hreg.scripted⟩

theorem extended_link (hw : b.registry.Wired) (hc : b.registry.Copied) (a c : EntityId)
    (latency bandwidth : Float) : b.Extended (stateOf (link a c latency bandwidth b)) :=
  extended_change (grown_addLink _ _ _ _ _ hw hc)

/-! ## Builders that can be made -/

/-- The builders that any calls can make, failing ones included, if the messages to be delivered
during the run are admitted. -/
inductive Made (admits : Time → Payload → Prop) : Builder → Prop where
  /-- A new builder. -/
  | start {s : Settings} {b : Builder} (h : Builder.start s = .ok b) : Made admits b
  /-- A head is added. -/
  | puddleHead {b : Builder} (hb : Made admits b) (name : String) (level : Level)
      (coverage : Polygon Float) (anchor : Point Float) :
      Made admits (stateOf (Builder.puddleHead name level coverage anchor b))
  /-- A head is put below another. -/
  | attach {b : Builder} (hb : Made admits b) (child parent : EntityId) :
      Made admits (stateOf (Builder.attach child parent b))
  /-- A node is added. -/
  | fogNode {b : Builder} (hb : Made admits b) (spec : NodeSpec) :
      Made admits (stateOf (Builder.fogNode spec b))
  /-- A link is added. -/
  | link {b : Builder} (hb : Made admits b) (first second : EntityId) (latency bandwidth : Float) :
      Made admits (stateOf (Builder.link first second latency bandwidth b))
  /-- A message is to be delivered. -/
  | schedule {b : Builder} (hb : Made admits b) {due : Time} {sender receiver : EntityId}
      {message : Message} (h : admits due (.deliver sender receiver message)) :
      Made admits (b.schedule due sender receiver message)

/-- A builder in which nobody has been placed yet. -/
structure Draft (admits : Time → Payload → Prop) (b : Builder) : Prop where
  /-- All records agree. -/
  orderly : b.registry.Orderly
  /-- The broker is a broker. -/
  broker : b.registry.kind b.broker = .ok .broker
  /-- Nobody has dealt with the nodes. -/
  unplaced : ∀ {k n}, b.registry.fogNode k = .ok n → n.Unplaced
  /-- No head lists anybody. -/
  unlisted : ∀ {a k}, ¬ b.registry.Lists a k
  /-- Nothing is kept for strangers. -/
  pruned : b.registry.Pruned
  /-- The messages to be delivered are admitted. -/
  scripted : ∀ e ∈ b.scripted, admits e.1 e.2

theorem Draft.extend {admits : Time → Payload → Prop} {c : Builder} (hb : b.Draft admits)
    (h : b.Extended c) : c.Draft admits where
  orderly := h.registry.orderly hb.orderly
  broker := by
    rw [h.broker]
    exact h.registry.kind hb.broker
  unplaced {k m} hm := by
    rcases h.registry.node hm with ⟨n, hn, h1, h2, h3, -⟩ | ⟨-, hu⟩
    · obtain ⟨u1, u2, u3⟩ := hb.unplaced hn
      exact ⟨h1.trans u1, h2.trans u2, h3.trans u3⟩
    · exact hu
  unlisted hl := hb.unlisted (h.registry.lists_iff.1 hl)
  pruned := h.registry.pruned hb.pruned
  scripted := by
    rw [h.scripted]
    exact hb.scripted

theorem orderly_empty (k : EntityId) : Orderly ⟨.empty, k⟩ := by
  have hnone : ∀ {j e}, (⟨.empty, k⟩ : Registry).entities.get? j ≠ some e := nofun
  have hnode : ∀ {j n}, (⟨.empty, k⟩ : Registry).fogNode j ≠ .ok n := fun h =>
    hnone (fogNode_eq_ok_iff.1 h)
  have hhead : ∀ {j h}, (⟨.empty, k⟩ : Registry).puddleHead j ≠ .ok h := fun h =>
    hnone (puddleHead_eq_ok_iff.1 h)
  have hlists : ∀ {a j}, ¬ (⟨.empty, k⟩ : Registry).Lists a j := fun ⟨_, hh, _⟩ => hhead hh
  have howns : ∀ {a j}, ¬ (⟨.empty, k⟩ : Registry).Owns a j := fun ⟨_, hn, _⟩ => hnode hn
  have hbefriends : ∀ {a j}, ¬ (⟨.empty, k⟩ : Registry).Befriends a j := fun ⟨_, hn, _⟩ => hnode hn
  refine ⟨⟨fun h => absurd h hnone, fun h => absurd h hhead, fun h => ?_, fun h => ?_,
    fun h => absurd h hnode⟩, ⟨fun h => absurd h hhead, fun h => absurd h hlists,
    fun h => absurd h hhead, fun h => absurd h howns, fun _ _ _ h => absurd h hhead⟩,
    ⟨fun h => absurd h hbefriends, hbefriends, fun h => absurd h hbefriends,
    fun h => absurd h howns, fun h => absurd h hbefriends⟩⟩
  · exact absurd (broker_eq_ok_iff.1 h) hnone
  · exact absurd (link_eq_ok_iff.1 h) hnone

theorem pruned_empty (k : EntityId) : Pruned ⟨.empty, k⟩ where
  copies hg := nomatch puddleHead_eq_ok_iff.1 hg
  services hg := nomatch puddleHead_eq_ok_iff.1 hg

/-- A new builder knows the broker, which has the first number, and nobody else. -/
theorem start_eq_ok {s : Settings} (h : Builder.start s = .ok b) : s.validate = .ok () ∧
    b = ⟨s, (⟨.empty, 2⟩ : Registry).put 1 (.broker (.create 1)), 1, .ofSeed s.seed, []⟩ := by
  unfold Builder.start at h
  cases hv : s.validate with
  | error fault =>
    rw [hv] at h
    cases h
  | ok _ =>
    rw [hv] at h
    exact ⟨rfl, (Except.ok.inj h).symm⟩

theorem draft_start {admits : Time → Payload → Prop} {s : Settings} (h : Builder.start s = .ok b) :
    b.Draft admits := by
  obtain ⟨-, rfl⟩ := start_eq_ok h
  have hempty := orderly_empty 2
  have hborn : Newborn ⟨.empty, 2⟩ 1 (.broker (.create 1)) := ⟨rfl, rfl⟩
  have hgrown := Grown.put hempty.wired hempty.enrolled.copied rfl hborn
  refine ⟨hgrown.orderly hempty, kind_put_self _ _ _, fun hn => ?_, fun hl => ?_,
    hgrown.pruned (pruned_empty 2), nofun⟩
  · rcases hgrown.node hn with ⟨n, hn, -⟩ | ⟨-, hu⟩
    · cases fogNode_eq_ok_iff.1 hn
    · exact hu
  · obtain ⟨h, hh, -⟩ := hgrown.lists_iff.1 hl
    cases puddleHead_eq_ok_iff.1 hh

/-- Whatever the calls, nobody is placed before the network is built. -/
theorem Made.draft {admits : Time → Payload → Prop} (h : Made admits b) : b.Draft admits := by
  induction h with
  | start h => exact draft_start h
  | puddleHead _ name level coverage anchor ih =>
    exact ih.extend (extended_puddleHead ih.orderly.wired ih.orderly.enrolled.copied _ _ _ _)
  | attach _ child parent ih =>
    exact ih.extend (extended_attach ih.orderly.wired ih.orderly.enrolled.copied _ _)
  | fogNode _ spec ih =>
    exact ih.extend (extended_fogNode ih.orderly.wired ih.orderly.enrolled.copied _)
  | link _ first second latency bandwidth ih =>
    exact ih.extend (extended_link ih.orderly.wired ih.orderly.enrolled.copied _ _ _ _)
  | schedule _ h ih =>
    refine ⟨ih.orderly, ih.broker, ih.unplaced, ih.unlisted, ih.pruned, fun e he => ?_⟩
    rcases List.mem_append.1 he with he | he
    · exact ih.scripted e he
    · obtain rfl := List.mem_singleton.1 he
      exact h

end Builder

end FogNet
