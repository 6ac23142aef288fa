import FogNet.Proofs.Topology.Completion

/-!
# The broker's catalogue

While a network is put together, the broker notes every head and every node, and every head notes
its children. A registry is `Catalogued` if the broker's lists hold the heads of each level in the
order of their numbers, which is the order of registration, and if heads keep copies for their
children and for nobody else; it is `Counted` if the broker counts all nodes and nothing but nodes.
All steps of a builder keep both: `register` notes what it adds, and all other steps add no more
than links (`Registry.Amended`), and nodes and heads stay as they have been described
(`Registry.Shows`). So a finished network starts catalogued and counted
(`Builder.catalogued_of_build`).
-/

namespace FogNet

open Registry

/-- A head has a copy of a list for each of its children and for nobody else. -/
def PuddleHead.Branched (h : PuddleHead) : Prop :=
  ∀ c, (h.childPuddles.get? c).isSome ↔ c ∈ h.children

/-- The level of a head. -/
def Entity.headLevel? : Entity → Option Level
  | puddleHead h => some h.level
  | _ => none

/-- What a node or a head is described with. -/
inductive Particulars where
  /-- What a node is called, where it starts and what it offers. -/
  | fogNode (name : String) (level : Level) (position : Point Float) (bounds : Rectangle Float)
      (mobile : Bool) (characteristics : Characteristics)
  /-- What a head is called and which region it is responsible for. -/
  | puddleHead (name : String) (level : Level) (corners : List (Point Float))
      (anchor : Point Float)

/-- What a node is described with. -/
def FogNode.particulars (n : FogNode) : Particulars :=
  .fogNode n.name n.level n.position n.motion.bounds n.motion.mobile n.characteristics

/-- What a new node is described with. -/
def NodeSpec.particulars (spec : NodeSpec) : Particulars :=
  .fogNode spec.name spec.level spec.start spec.bounds spec.mobile spec.characteristics

/-- A node that begins as it is described is described as the new node. -/
theorem NodeSpec.Begins.particulars {spec : NodeSpec} {motion : Motion Float}
    (h : spec.Begins motion) (id : EntityId) :
    (FogNode.create id spec.name spec.level motion spec.characteristics).particulars =
      spec.particulars := by
  unfold FogNode.particulars NodeSpec.particulars
  rw [← h.position, ← h.bounds, ← h.mobile]
  rfl

/-- What a head is described with. -/
def PuddleHead.particulars (h : PuddleHead) : Particulars :=
  .puddleHead h.name h.level h.coverage.vertices h.anchor

/-- What a node or a head is described with; other entities are not described. -/
def Entity.particulars? : Entity → Option Particulars
  | fogNode n => some n.particulars
  | puddleHead h => some h.particulars
  | link _ => none
  | broker _ => none

/-- The same entity as far as indices and the tree of heads go. -/
inductive Entity.SameEntry : Entity → Entity → Prop where
  /-- A node is described as before, does not move and is counted, whatever it does. -/
  | fogNode {n m : FogNode} (hsame : m.particulars = n.particulars)
      (hmotion : m.motion = n.motion) : SameEntry (.fogNode n) (.fogNode m)
  /-- A head is described as before, and copies go with children. -/
  | puddleHead {h g : PuddleHead} (hsame : g.particulars = h.particulars)
      (hbranched : h.Branched → g.Branched) : SameEntry (.puddleHead h) (.puddleHead g)
  /-- Links are in no index and carry nothing yet. -/
  | link {l : Link} : SameEntry (.link l) (.link l)
  /-- The broker keeps its indices. -/
  | broker {b c : Broker} (hheads : c.headsByLevel = b.headsByLevel)
      (hnodes : c.fogNodes = b.fogNodes) : SameEntry (.broker b) (.broker c)

namespace Registry

/-- The indices of the heads are right. -/
structure Catalogued (r : Registry) (broker : EntityId) : Prop where
  /-- Numbers not given yet are free. -/
  numbers : ∀ {k e}, r.entities.get? k = some e → k < r.nextId
  /-- Heads have copies for their children and for nobody else. -/
  branched : ∀ {k h}, r.puddleHead k = .ok h → h.Branched
  /-- There is one broker. -/
  single : ∀ {k}, r.kind k = .ok .broker → k = broker
  /-- The heads of a level are in the order of their numbers. -/
  ascending : ∀ {b}, r.broker broker = .ok b → ∀ level, (b.headsAt level).Pairwise (· < ·)
  /-- The heads of a level are those of that level. -/
  heads : ∀ {b}, r.broker broker = .ok b → ∀ level a,
    a ∈ b.headsAt level ↔ ∃ e, r.entities.get? a = some e ∧ e.headLevel? = some level

/-- There is a node or a head with some particulars under a number. -/
def Shows (r : Registry) (k : EntityId) (p : Particulars) : Prop :=
  ∃ e, r.entities.get? k = some e ∧ e.particulars? = some p

/-- The broker counts all nodes and nothing else. -/
def Counted (r : Registry) (broker : EntityId) : Prop :=
  ∀ ⦃b⦄, r.broker broker = .ok b → ∀ k, k ∈ b.fogNodes ↔ r.kind k = .ok .fogNode

/-- One registry comes from another by changes that indices do not depend on, and by new links. -/
structure Amended (r q : Registry) : Prop where
  /-- Numbers are used up. -/
  nextId : r.nextId ≤ q.nextId
  /-- What was there stays what it was. -/
  old : ∀ {k e}, r.entities.get? k = some e → ∃ d, q.entities.get? k = some d ∧ e.SameEntry d
  /-- What is new is a new link. -/
  fresh : ∀ {k d}, q.entities.get? k = some d → r.entities.get? k = none →
    k < q.nextId ∧ ∃ l, d = .link l ∧ l.original = l

end Registry

variable {r q p : Registry} {broker id k a : EntityId} {level : Level} {e d x : Entity}
  {h g : PuddleHead} {b : Broker}

/-! ## Entries that stay -/

namespace PuddleHead.Branched

theorem congr (hcopies : g.childPuddles = h.childPuddles) (hchildren : g.children = h.children)
    (hh : h.Branched) : g.Branched := by
  intro c
  rw [hcopies, hchildren]
  exact hh c

theorem create (id : EntityId) (name : String) (level : Level) (coverage : Polygon Float)
    (anchor : Point Float) : (PuddleHead.create id name level coverage anchor).Branched := by
  intro c
  simp [PuddleHead.create]

/-- A new child comes with a copy of its list. -/
theorem addChild (child : EntityId) (members : List EntityId) (hh : h.Branched) :
    (h.addChild child members).Branched := by
  intro c
  have hchildren : c ∈ (h.addChild child members).children ↔ c = child ∨ c ∈ h.children := by
    unfold PuddleHead.addChild
    simp only
    split_ifs with hin
    · rw [List.contains_iff_mem] at hin
      exact ⟨.inr, fun hc => hc.elim (fun hc => hc ▸ hin) fun hc => hc⟩
    · rw [List.mem_append, List.mem_singleton, or_comm]
  rw [hchildren, ← hh c]
  unfold PuddleHead.addChild
  simp only [SortedMap.get?_insert]
  split_ifs with hc
  · simp [hc]
  · simp [hc]

theorem refreshChild (child : EntityId) (members : List EntityId) (hh : h.Branched) :
    (h.refreshChild child members).Branched := by
  intro c
  rw [← show (h.childPuddles.get? c).isSome ↔ c ∈ (h.refreshChild child members).children from hh c]
  unfold PuddleHead.refreshChild
  simp only [SortedMap.get?_modify]
  split_ifs
  · rw [Option.isSome_map]
  · rfl

end PuddleHead.Branched

namespace Entity.SameEntry

theorem refl (e : Entity) : e.SameEntry e := by
  cases e with
  | fogNode n => exact .fogNode rfl rfl
  | puddleHead h => exact .puddleHead rfl fun hh => hh
  | link l => exact .link
  | broker b => exact .broker rfl rfl

theorem trans (h : e.SameEntry d) (h' : d.SameEntry x) : e.SameEntry x := by
  cases h with
  | fogNode hl hm =>
    cases h' with
    | fogNode hl' hm' => exact .fogNode (hl'.trans hl) (hm'.trans hm)
  | puddleHead hl hb =>
    cases h' with
    | puddleHead hl' hb' => exact .puddleHead (hl'.trans hl) fun hh => hb' (hb hh)
  | link => cases h'; exact .link
  | broker hh hn =>
    cases h' with
    | broker hh' hn' => exact .broker (hh'.trans hh) (hn'.trans hn)

theorem kind (h : e.SameEntry d) : d.kind = e.kind := by cases h <;> rfl

theorem headLevel? (h : e.SameEntry d) : d.headLevel? = e.headLevel? := by
  cases h with
  | puddleHead hsame _ => exact congrArg some (Particulars.puddleHead.inj hsame).2.1
  | fogNode | link | broker => rfl

theorem particulars? (h : e.SameEntry d) : d.particulars? = e.particulars? := by
  cases h with
  | fogNode hsame _ => exact congrArg some hsame
  | puddleHead hsame _ => exact congrArg some hsame
  | link | broker => rfl

theorem attachLink (link : EntityId) (e : Entity) : e.SameEntry (e.attachLink link) := by
  cases e with
  | fogNode n => exact .fogNode rfl rfl
  | puddleHead h => exact .puddleHead rfl fun hh => hh.congr rfl rfl
  | link l => exact .link
  | broker b => exact .broker rfl rfl

end Entity.SameEntry

/-! ## Amendments -/

namespace Registry.Amended

theorem refl (r : Registry) : Amended r r :=
  ⟨Nat.le_refl _, fun {_ e} he => ⟨e, he, .refl e⟩, fun hd hnone => nomatch hd.symm.trans hnone⟩

theorem trans (hq : Amended r q) (hp : Amended q p) : Amended r p := by
  refine ⟨Nat.le_trans hq.nextId hp.nextId, fun {k e} he => ?_, fun {k x} hx hnone => ?_⟩
  · obtain ⟨d, hd, hsame⟩ := hq.old he
    obtain ⟨x, hx, hsame'⟩ := hp.old hd
    exact ⟨x, hx, hsame.trans hsame'⟩
  · cases hk : q.entities.get? k with
    | none => exact hp.fresh hx hk
    | some d =>
      obtain ⟨hlt, l, rfl, hl⟩ := hq.fresh hk hnone
      obtain ⟨y, hy, hsame⟩ := hp.old hk
      obtain rfl := Option.some.inj (hx.symm.trans hy)
      refine ⟨Nat.lt_of_lt_of_le hlt hp.nextId, ?_⟩
      cases hsame
      exact ⟨l, rfl, hl⟩

/-- Storing the same entry in the place of an entity is an amendment. -/
theorem put (he : r.entities.get? id = some e) (hsame : e.SameEntry d) :
    Amended r (r.put id d) := by
  refine ⟨Nat.le_refl _, fun {k x} hx => ?_, fun {k x} hx hnone => ?_⟩
  · rw [get?_put]
    split_ifs with hk
    · rw [hk, he] at hx
      exact ⟨d, rfl, Option.some.inj hx ▸ hsame⟩
    · exact ⟨x, hx, .refl x⟩
  · rcases get?_put_cases hx with ⟨rfl, -⟩ | ⟨-, hx⟩
    · rw [he] at hnone
      cases hnone
    · rw [hx] at hnone
      cases hnone

theorem broker_of_old (hq : Amended r q) (hb : r.broker broker = .ok b) :
    ∃ c, q.broker broker = .ok c ∧ c.headsByLevel = b.headsByLevel ∧ c.fogNodes = b.fogNodes := by
  obtain ⟨d, hd, hsame⟩ := hq.old (broker_eq_ok_iff.1 hb)
  cases hsame with
  | broker hheads hnodes => exact ⟨_, broker_eq_ok_iff.2 hd, hheads, hnodes⟩

/-- Amendments add nothing that links do not look like. -/
theorem view_iff {β : Type} {view : Entity → Option β} {v : β}
    (hview : ∀ {e d : Entity}, e.SameEntry d → view d = view e)
    (hlink : ∀ l, view (.link l) = none) (hq : Amended r q) :
    (∃ e, q.entities.get? a = some e ∧ view e = some v) ↔
      ∃ e, r.entities.get? a = some e ∧ view e = some v := by
  constructor
  · rintro ⟨d, hd, hv⟩
    cases ha : r.entities.get? a with
    | none =>
      obtain ⟨-, l, rfl, -⟩ := hq.fresh hd ha
      rw [hlink] at hv
      cases hv
    | some e =>
      obtain ⟨d', hd', hsame⟩ := hq.old ha
      obtain rfl := Option.some.inj (hd.symm.trans hd')
      exact ⟨e, rfl, (hview hsame).symm.trans hv⟩
  · rintro ⟨e, he, hv⟩
    obtain ⟨d, hd, hsame⟩ := hq.old he
    exact ⟨d, hd, (hview hsame).trans hv⟩

/-- Amendments add no heads. -/
theorem headLevel?_iff (hq : Amended r q) :
    (∃ e, q.entities.get? a = some e ∧ e.headLevel? = some level) ↔
      ∃ e, r.entities.get? a = some e ∧ e.headLevel? = some level :=
  hq.view_iff (fun h => h.headLevel?) fun _ => rfl

/-- Amendments add nothing that is described. -/
theorem shows_iff (hq : Amended r q) {p : Particulars} : q.Shows k p ↔ r.Shows k p :=
  hq.view_iff (fun h => h.particulars?) fun _ => rfl

/-- Amendments add links only. -/
theorem kind_iff {κ : EntityKind} (hq : Amended r q) (hκ : κ ≠ .link) :
    q.kind k = .ok κ ↔ r.kind k = .ok κ := by
  rw [kind_eq_ok_iff, kind_eq_ok_iff]
  constructor
  · rintro ⟨d, hd, hkind⟩
    cases hk : r.entities.get? k with
    | none =>
      obtain ⟨-, l, rfl, -⟩ := hq.fresh hd hk
      exact absurd hkind.symm hκ
    | some e =>
      obtain ⟨d', hd', hsame⟩ := hq.old hk
      obtain rfl := Option.some.inj (hd.symm.trans hd')
      exact ⟨e, rfl, hsame.kind.symm.trans hkind⟩
  · rintro ⟨e, he, hkind⟩
    obtain ⟨d, hd, hsame⟩ := hq.old he
    exact ⟨d, hd, hsame.kind.trans hkind⟩

end Registry.Amended

namespace Registry

/-- Amendments keep the indices of the heads right. -/
theorem Catalogued.amend (hr : r.Catalogued broker) (hbroker : r.kind broker = .ok .broker)
    (hq : Amended r q) : q.Catalogued broker := by
  obtain ⟨b, hb⟩ := kind_eq_broker_iff.1 hbroker
  obtain ⟨c, hc, hheads, -⟩ := hq.broker_of_old hb
  have hat : ∀ {c'}, q.broker broker = .ok c' → ∀ l, c'.headsAt l = b.headsAt l := fun hc' l => by
    rw [← Except.ok.inj (hc.symm.trans hc')]
    unfold Broker.headsAt
    rw [hheads]
  refine ⟨fun {k d} hd => ?_, fun {k g} hg => ?_, fun {k} hk => ?_, fun hc' l => ?_,
    fun hc' l a => ?_⟩
  · cases hk : r.entities.get? k with
    | none => exact (hq.fresh hd hk).1
    | some e => exact Nat.lt_of_lt_of_le (hr.numbers hk) hq.nextId
  · rw [puddleHead_eq_ok_iff] at hg
    cases hk : r.entities.get? k with
    | none =>
      obtain ⟨-, l, hl, -⟩ := hq.fresh hg hk
      cases hl
    | some e =>
      obtain ⟨d, hd, hsame⟩ := hq.old hk
      obtain rfl := Option.some.inj (hg.symm.trans hd)
      cases hsame with
      | puddleHead _ hbranched => exact hbranched (hr.branched (puddleHead_eq_ok_iff.2 hk))
  · exact hr.single ((hq.kind_iff (by decide)).1 hk)
  · rw [hat hc' l]
    exact hr.ascending hb l
  · rw [hat hc' l, hr.heads hb, hq.headLevel?_iff]

/-- Amendments keep the count of the nodes right. -/
theorem Counted.amend (hr : r.Counted broker) (hbroker : r.kind broker = .ok .broker)
    (hq : Amended r q) : q.Counted broker := by
  obtain ⟨b, hb⟩ := kind_eq_broker_iff.1 hbroker
  obtain ⟨c, hc, -, hnodes⟩ := hq.broker_of_old hb
  intro c' hc' k
  rw [← Except.ok.inj (hc.symm.trans hc'), hnodes, hr hb, hq.kind_iff (κ := .fogNode) (by decide)]

/-- The heads of a level, as look-ups find them. -/
theorem Catalogued.mem_headsAt_iff (hr : r.Catalogued broker) (hb : r.broker broker = .ok b) :
    a ∈ b.headsAt level ↔ ∃ h, r.puddleHead a = .ok h ∧ h.level = level := by
  rw [hr.heads hb]
  constructor
  · rintro ⟨e, he, hlevel⟩
    cases e with
    | puddleHead h => exact ⟨h, puddleHead_eq_ok_iff.2 he, Option.some.inj hlevel⟩
    | fogNode | link | broker => cases hlevel
  · rintro ⟨h, hh, hlevel⟩
    exact ⟨_, puddleHead_eq_ok_iff.1 hh, congrArg some hlevel⟩

end Registry

/-! ## Steps that amend a registry -/

namespace Change

variable {α β : Type}

/-- A step only amends registries, whether it succeeds or fails. -/
def Amends (x : Change α) : Prop := ∀ r, Amended r (stateOf (x r))

namespace Amends

theorem of_ok {x : Change α} {a : α} (hx : Amends x) (h : x r = .ok a q) : Amended r q := by
  have hr := hx r
  rwa [h] at hr

theorem pure (a : α) : Amends (pure a : Change α) := fun r => .refl r

theorem fail (fault : Fault) : Amends (fail fault : Change α) := fun r => .refl r

theorem read (look : Registry → Except Fault α) : Amends (read look) := by
  intro r
  unfold Change.read
  cases look r <;> exact .refl r

theorem bind {x : Change α} {f : α → Change β} (hx : Amends x) (hf : ∀ a, Amends (f a)) :
    Amends (x >>= f) := by
  intro r
  have hr := hx r
  cases h : x r with
  | ok a q =>
    rw [bind_of_ok h]
    rw [h] at hr
    exact hr.trans (hf a q)
  | error fault q =>
    rw [bind_of_error h]
    rwa [h] at hr

theorem discard {x : Change α} (hx : Amends x) : Amends (discard x) := by
  intro r
  have hr := hx r
  cases h : x r with
  | ok a q =>
    rw [discard_of_ok h]
    rwa [h] at hr
  | error fault q =>
    rw [discard_of_error h]
    rwa [h] at hr

theorem ite {c : Prop} [Decidable c] {x y : Change α} (hx : Amends x) (hy : Amends y) :
    Amends (if c then x else y) := by
  split_ifs
  · exact hx
  · exact hy

/-- A call that is refused changes nothing. -/
theorem guard {c : Prop} [Decidable c] {fault : Fault} {k : Unit → Change α} (hk : Amends (k ())) :
    Amends (if c then Change.fail fault >>= k else k ()) := by
  intro r
  split_ifs
  · exact .refl r
  · exact hk r

theorem forM {γ : Type} {l : List γ} {f : γ → Change Unit} (hf : ∀ a, Amends (f a)) :
    Amends (l.forM f) := by
  induction l with
  | nil => exact .pure ()
  | cons a rest ih => exact (hf a).bind fun _ => ih

theorem updateNode (id : EntityId) {f : FogNode → FogNode}
    (hf : ∀ n, (f n).particulars = n.particulars ∧ (f n).motion = n.motion) :
    Amends (updateNode id f) := by
  intro r
  cases hn : r.fogNode id with
  | error fault =>
    rw [updateNode_of_error f hn]
    exact .refl r
  | ok n =>
    unfold Change.updateNode
    rw [bind_of_ok (fogNode_of_ok hn)]
    exact .put (fogNode_eq_ok_iff.1 hn) (.fogNode (hf n).1 (hf n).2)

theorem updateHead (id : EntityId) {f : PuddleHead → PuddleHead}
    (hsame : ∀ h, (f h).particulars = h.particulars)
    (hbranched : ∀ h : PuddleHead, h.Branched → (f h).Branched) : Amends (updateHead id f) := by
  intro r
  cases hh : r.puddleHead id with
  | error fault =>
    rw [updateHead_of_error f hh]
    exact .refl r
  | ok h =>
    unfold Change.updateHead
    rw [bind_of_ok (puddleHead_of_ok hh)]
    exact .put (puddleHead_eq_ok_iff.1 hh) (.puddleHead (hsame h) (hbranched h))

theorem updateBroker (id : EntityId) {f : Broker → Broker}
    (hf : ∀ b, (f b).headsByLevel = b.headsByLevel ∧ (f b).fogNodes = b.fogNodes) :
    Amends (updateBroker id f) := by
  intro r
  unfold Change.updateBroker
  cases hb : r.broker id with
  | error fault =>
    rw [bind_of_error (read_of_error hb)]
    exact .refl r
  | ok b =>
    rw [bind_of_ok (read_of_ok hb)]
    exact .put (broker_eq_ok_iff.1 hb) (.broker (hf b).1 (hf b).2)

theorem attachLink (id link : EntityId) : Amends (updateEntity id (·.attachLink link)) := by
  intro r
  unfold updateEntity
  cases he : r.entity id with
  | error fault =>
    rw [bind_of_error (read_of_error he)]
    exact .refl r
  | ok e =>
    rw [bind_of_ok (read_of_ok he)]
    exact .put (entity_eq_ok_iff.1 he) (.attachLink link e)

/-- Putting a head below another one leaves the indices alone. -/
theorem adoptChild (parent child : EntityId) : Amends (adoptChild parent child) := by
  have hbuddy : ∀ a b, Amends (Change.updateHead a (·.addBuddy b)) := by
    intro a b
    apply updateHead
    · intro h
      unfold PuddleHead.addBuddy
      split_ifs <;> rfl
    · intro h hh
      unfold PuddleHead.addBuddy
      split_ifs
      · exact hh
      · exact hh.congr rfl rfl
  unfold Change.adoptChild
  refine .guard (.bind (.read _) fun above => .bind (.read _) fun below => .guard (.guard ?_))
  refine .bind (.forM fun sibling => .bind (hbuddy _ _) fun _ => hbuddy _ _) fun _ => ?_
  refine .bind (.updateHead _ (fun _ => rfl) fun h hh => hh.addChild _ _) fun _ => ?_
  exact .updateHead _ (fun _ => rfl) fun h hh => hh.congr rfl rfl

theorem befriend (node member : EntityId) : Amends (befriend node member) := by
  have hbuddy : ∀ a b, Amends (Change.updateNode a (·.addBuddy b)) := fun a b =>
    .updateNode a fun n => by
      unfold FogNode.addBuddy
      split_ifs <;> exact ⟨rfl, rfl⟩
  exact .bind (.read _) fun _ => .ite (.pure ()) (.bind (hbuddy _ _) fun _ => hbuddy _ _)

theorem refreshParent (head : EntityId) : Amends (refreshParent head) := by
  refine .bind (.read _) fun h => ?_
  cases h.parent with
  | none => exact .pure ()
  | some parent => exact .updateHead _ (fun _ => rfl) fun g hg => hg.refreshChild _ _

/-- Taking a node in leaves the indices alone. -/
theorem join (head node : EntityId) : Amends (join head node) := by
  refine .bind (.read _) fun h => .ite (.pure false) ?_
  refine .bind (.read _) fun n => .ite (.pure false) ?_
  have howner : Amends (Change.updateNode node (·.setOwner head)) := .updateNode node fun n => by
    unfold FogNode.setOwner
    split_ifs <;> exact ⟨rfl, rfl⟩
  refine .bind (.forM fun _ => .befriend _ _) fun _ => .bind howner fun _ => ?_
  refine .bind (.updateHead _ (fun h => ?_) fun h hh => ?_) fun _ => ?_
  · unfold PuddleHead.addMember
    split_ifs <;> rfl
  · unfold PuddleHead.addMember
    split_ifs
    · exact hh
    · exact hh.congr rfl rfl
  · exact .bind (.refreshParent _) fun _ => .pure true

/-- Storing a link under a fresh number leaves the indices alone. -/
theorem newLink (make : EntityId → Link) {f : EntityId → Change α}
    (hmake : ∀ id, (make id).original = make id) (hf : ∀ id, Amends (f id)) :
    Amends (allocate >>= fun id => insert id (.link (make id)) >>= fun _ => f id) := by
  intro r
  have hused : Amended r r.allocate.2 := ⟨Nat.le_succ _, fun {_ e} he => ⟨e, he, .refl e⟩,
    fun hd hnone => by rw [show r.entities.get? _ = some _ from hd] at hnone; cases hnone⟩
  rw [bind_of_ok (show allocate r = .ok r.nextId r.allocate.2 from rfl)]
  cases hfree : r.allocate.2.contains r.nextId with
  | true =>
    have hins : insert r.nextId (.link (make r.nextId)) r.allocate.2 =
        .error (.duplicateEntity r.nextId) r.allocate.2 := by
      unfold insert Registry.insert
      rw [hfree]
      rfl
    rw [bind_of_error hins]
    exact hused
  | false =>
    rw [bind_of_ok ((insert_eq_ok_iff (u := ())).2 ⟨hfree, rfl⟩)]
    have hnew : Amended r (r.allocate.2.put r.nextId (.link (make r.nextId))) := by
      refine ⟨hused.nextId, fun {k e} he => ?_, fun {k d} hd hnone => ?_⟩
      · refine ⟨e, ?_, .refl e⟩
        rw [get?_put, if_neg]
        · exact he
        · rintro rfl
          rw [show r.entities.get? _ = none from get?_eq_none_of_contains hfree] at he
          cases he
      · rcases get?_put_cases hd with ⟨rfl, rfl⟩ | ⟨-, hd⟩
        · exact ⟨Nat.lt_succ_self _, _, rfl, hmake _⟩
        · rw [show r.entities.get? _ = some _ from hd] at hnone
          cases hnone
    exact hnew.trans (hf _ _)

end Amends

end Change

namespace Builder

open Change

/-- Adding a link adds nothing else. -/
theorem amends_addLink (broker a b : EntityId) (latency bandwidth : Float) :
    Amends (addLink broker a b latency bandwidth) := by
  have hend : ∀ endpoint, Amends (checkEnd a b endpoint) := by
    intro endpoint
    refine .bind (.read _) fun κ => ?_
    cases κ with
    | fogNode | puddleHead => exact .pure ()
    | link | broker => exact .fail _
  unfold addLink
  refine .guard ?_
  refine .guard ?_
  refine .bind (hend a) fun _ => .bind (hend b) fun _ => ?_
  refine .newLink (fun id => .create id a b latency bandwidth) (fun _ => rfl) fun id => ?_
  refine .bind (.attachLink _ _) fun _ => .bind (.attachLink _ _) fun _ => ?_
  exact .bind (.updateBroker _ fun _ => ⟨rfl, rfl⟩) fun _ => .pure id

/-- What `register` leaves behind: the new entity, and the broker that has noted it. -/
def noted (r : Registry) (broker : EntityId) (make : EntityId → Entity)
    (note : EntityId → Broker → Broker) : Registry :=
  (r.allocate.2.put r.nextId (make r.nextId)).touch (.onBroker broker (note r.nextId))

variable {α : Type} {c : Builder} {make : EntityId → Entity} {note : EntityId → Broker → Broker}

/-- The next number is free. -/
theorem contains_nextId (hr : r.Catalogued broker) : r.allocate.2.contains r.nextId = false := by
  cases hk : r.allocate.2.contains r.nextId with
  | false => rfl
  | true =>
    obtain ⟨e, he⟩ := Option.isSome_iff_exists.1 hk
    exact absurd (hr.numbers he) (Nat.lt_irrefl _)

/-- Adding a new entity succeeds, and answers with its number. -/
theorem register_ok (hr : r.Catalogued broker) (hb : r.broker broker = .ok b) :
    register broker make note r = .ok r.nextId (noted r broker make note) := by
  have hfree : r.allocate.2.contains r.nextId = false := contains_nextId hr
  have hbroker : (r.allocate.2.put r.nextId (make r.nextId)).broker broker = .ok b := by
    rw [broker_eq_ok_iff, get?_put, if_neg]
    · exact broker_eq_ok_iff.1 hb
    · rintro rfl
      exact absurd (hr.numbers (broker_eq_ok_iff.1 hb)) (Nat.lt_irrefl _)
  unfold register
  rw [bind_of_ok (show Change.allocate r = .ok r.nextId r.allocate.2 from rfl),
    bind_of_ok ((insert_eq_ok_iff (u := ())).2 ⟨hfree, rfl⟩),
    bind_of_ok (updateBroker_of_ok _ hbroker)]
  rfl

/-- What is stored once a new entity is noted. -/
theorem get?_noted (r : Registry) (broker : EntityId) (make : EntityId → Entity)
    (note : EntityId → Broker → Broker) (k : EntityId) :
    (noted r broker make note).entities.get? k =
      if k = r.nextId then some ((Touch.onBroker broker (note r.nextId)).entity k (make k))
      else (r.entities.get? k).map ((Touch.onBroker broker (note r.nextId)).entity k) := by
  unfold noted
  rw [get?_touch, get?_put]
  split_ifs with hk
  · rw [hk]
    rfl
  · rfl

theorem headLevel?_onBroker (f : Broker → Broker) (k : EntityId) (e : Entity) :
    ((Touch.onBroker id f).entity k e).headLevel? = e.headLevel? := by
  cases e <;> rfl

theorem particulars?_onBroker (f : Broker → Broker) (k : EntityId) (e : Entity) :
    ((Touch.onBroker id f).entity k e).particulars? = e.particulars? := by
  cases e <;> rfl

theorem broker_noted (hr : r.Catalogued broker) (hb : r.broker broker = .ok b) :
    (noted r broker make note).broker broker = .ok (note r.nextId b) := by
  have hne : broker ≠ r.nextId := by
    rintro rfl
    exact absurd (hr.numbers (broker_eq_ok_iff.1 hb)) (Nat.lt_irrefl _)
  rw [broker_eq_ok_iff, get?_noted, if_neg hne, broker_eq_ok_iff.1 hb]
  simp [Touch.entity, Touch.onBroker]

/-- An entity of a kind is the new one, or it has been there. -/
theorem kind_noted_iff {κ : EntityKind} (hr : r.Catalogued broker) :
    (noted r broker make note).kind k = .ok κ ↔
      r.kind k = .ok κ ∨ k = r.nextId ∧ (make k).kind = κ := by
  rw [kind_eq_ok_iff, kind_eq_ok_iff, get?_noted]
  split_ifs with hk
  · subst hk
    have hnone : ¬ ∃ e, r.entities.get? r.nextId = some e ∧ e.kind = κ :=
      fun ⟨e, he, _⟩ => absurd (hr.numbers he) (Nat.lt_irrefl _)
    rw [or_iff_right hnone]
    simp only [Option.some.injEq, exists_eq_left', Touch.kind_entity, true_and]
  · simp only [hk, false_and, or_false, Option.map_eq_some_iff]
    constructor
    · rintro ⟨_, ⟨e, he, rfl⟩, hkind⟩
      exact ⟨e, he, (Touch.kind_entity _ _ _).symm.trans hkind⟩
    · rintro ⟨e, he, hkind⟩
      exact ⟨_, ⟨e, he, rfl⟩, (Touch.kind_entity _ _ _).trans hkind⟩

/-- An entity of some look is the new one, or it has been there; the broker's look is not asked
for. -/
theorem view_noted_iff {β : Type} {view : Entity → Option β} {v : β}
    (hview : ∀ f k e, view ((Touch.onBroker broker f).entity k e) = view e)
    (hr : r.Catalogued broker) :
    (∃ e, (noted r broker make note).entities.get? a = some e ∧ view e = some v) ↔
      (∃ e, r.entities.get? a = some e ∧ view e = some v) ∨
        a = r.nextId ∧ view (make a) = some v := by
  rw [get?_noted]
  split_ifs with ha
  · subst ha
    have hnone : ¬ ∃ e, r.entities.get? r.nextId = some e ∧ view e = some v :=
      fun ⟨e, he, _⟩ => absurd (hr.numbers he) (Nat.lt_irrefl _)
    rw [or_iff_right hnone]
    simp only [Option.some.injEq, exists_eq_left', hview, true_and]
  · simp only [ha, false_and, or_false, Option.map_eq_some_iff]
    constructor
    · rintro ⟨_, ⟨e, he, rfl⟩, hl⟩
      exact ⟨e, he, (hview _ _ _).symm.trans hl⟩
    · rintro ⟨e, he, hl⟩
      exact ⟨_, ⟨e, he, rfl⟩, (hview _ _ _).trans hl⟩

/-- A head of a level is the new one, or it has been there. -/
theorem headLevel?_noted_iff (hr : r.Catalogued broker) :
    (∃ e, (noted r broker make note).entities.get? a = some e ∧ e.headLevel? = some level) ↔
      (∃ e, r.entities.get? a = some e ∧ e.headLevel? = some level) ∨
        a = r.nextId ∧ (make a).headLevel? = some level :=
  view_noted_iff headLevel?_onBroker hr

/-- What is described is the new entity, or it has been there. -/
theorem shows_noted_iff (hr : r.Catalogued broker) {p : Particulars} :
    (noted r broker make note).Shows k p ↔
      r.Shows k p ∨ k = r.nextId ∧ (make k).particulars? = some p :=
  view_noted_iff particulars?_onBroker hr

/-- Heads stay as they are when a new entity is noted. -/
theorem puddleHead_of_noted (hg : (noted r broker make note).puddleHead k = .ok g) :
    r.puddleHead k = .ok g ∨ make k = .puddleHead g := by
  rw [puddleHead_eq_ok_iff, get?_noted] at hg
  split_ifs at hg with hk
  · cases hm : make k with
    | puddleHead h =>
      rw [hm] at hg
      cases hg
      exact .inr rfl
    | fogNode | link | broker =>
      rw [hm] at hg
      cases hg
  · obtain ⟨e, he, htouch⟩ := Option.map_eq_some_iff.1 hg
    cases e with
    | puddleHead h =>
      cases htouch
      exact .inl (puddleHead_eq_ok_iff.2 he)
    | fogNode | link | broker => cases htouch

/-- A new entity that the broker notes goes to the end of the list of its level. -/
theorem catalogued_noted (hr : r.Catalogued broker) (hb : r.broker broker = .ok b)
    (hmake : ∀ id, (make id).kind ≠ .broker ∧ ∀ h, make id = .puddleHead h → h.Branched)
    (hnote : ∀ id b l, (note id b).headsAt l =
      b.headsAt l ++ if (make id).headLevel? = some l then [id] else []) :
    (noted r broker make note).Catalogued broker := by
  have hat : ∀ {c}, (noted r broker make note).broker broker = .ok c → ∀ l,
      c.headsAt l = b.headsAt l ++ if (make r.nextId).headLevel? = some l then [r.nextId] else [] :=
    fun hc l => by rw [← Except.ok.inj ((broker_noted hr hb).symm.trans hc), hnote]
  refine ⟨fun {k d} hd => ?_, fun {k g} hg => ?_, fun {k} hk => ?_, fun hc l => ?_,
    fun hc l a => ?_⟩
  · rw [get?_noted] at hd
    split_ifs at hd with hk
    · exact hk ▸ Nat.lt_succ_self _
    · obtain ⟨e, he, -⟩ := Option.map_eq_some_iff.1 hd
      exact Nat.lt_succ_of_lt (hr.numbers he)
  · rcases puddleHead_of_noted hg with hg | hg
    · exact hr.branched hg
    · exact (hmake k).2 g hg
  · rcases (kind_noted_iff hr).1 hk with hk | ⟨-, hk⟩
    · exact hr.single hk
    · exact absurd hk (hmake k).1
  · rw [hat hc l]
    refine List.pairwise_append.2 ⟨hr.ascending hb l, by split_ifs <;> simp, fun a ha c hc => ?_⟩
    obtain ⟨e, he, -⟩ := (hr.heads hb l a).1 ha
    split_ifs at hc
    · rw [List.mem_singleton.1 hc]
      exact hr.numbers he
    · cases hc
  · rw [hat hc l, List.mem_append, hr.heads hb, headLevel?_noted_iff hr]
    refine or_congr_right ?_
    split_ifs with hl
    · rw [List.mem_singleton]
      exact (and_iff_left_of_imp fun ha => ha ▸ hl).symm
    · refine iff_of_false List.not_mem_nil fun ⟨ha, hla⟩ => hl (ha ▸ hla)

/-- A new head goes to the end of the list of its level. -/
theorem headsAt_registerHead (b : Broker) (head : EntityId) (level l : Level) :
    (b.registerHead head level).headsAt l =
      b.headsAt l ++ if level = l then [head] else [] := by
  unfold Broker.headsAt Broker.registerHead
  simp only [SortedMap.get?_insert]
  by_cases hl : l = level
  · rw [if_pos hl, if_pos hl.symm, hl]
    rfl
  · rw [if_neg hl, if_neg (Ne.symm hl), List.append_nil]

/-- A new entity that the broker notes is counted if it is a node. -/
theorem counted_noted (hr : r.Catalogued broker) (hcount : r.Counted broker)
    (hb : r.broker broker = .ok b) (hnote : ∀ id b k,
      k ∈ (note id b).fogNodes ↔ k ∈ b.fogNodes ∨ k = id ∧ (make id).kind = .fogNode) :
    (noted r broker make note).Counted broker := by
  intro c hc k
  rw [← Except.ok.inj ((broker_noted hr hb).symm.trans hc), hnote, hcount hb, kind_noted_iff hr]
  exact or_congr_right (and_congr_right fun hk => by rw [hk])

/-! ## Builders keep the catalogue -/

/-- What a step of a builder leaves behind; the broker stays the same. -/
theorem stateOf_change (step : Change α) (b : Builder) :
    stateOf (change step b) = { b with registry := stateOf (step b.registry) } := by
  unfold change
  cases step b.registry <;> rfl

theorem stateOf_attach (child parent : EntityId) (b : Builder) :
    stateOf (attach child parent b) =
      { b with registry := stateOf (adoptChild parent child b.registry) } :=
  stateOf_change _ b

theorem stateOf_link (first second : EntityId) (latency bandwidth : Float) (b : Builder) :
    stateOf (link first second latency bandwidth b) =
      { b with registry := stateOf (addLink b.broker first second latency bandwidth b.registry) } :=
  stateOf_change _ b

/-- To add a head never fails. -/
theorem puddleHead_ok (hc : c.registry.Catalogued c.broker)
    (hb : c.registry.broker c.broker = .ok b) (name : String) (level : Level)
    (coverage : Polygon Float) (anchor : Point Float) :
    Builder.puddleHead name level coverage anchor c = .ok c.registry.nextId
      { c with
        registry := noted c.registry c.broker
          (fun id => .puddleHead (.create id name level coverage anchor))
          (fun id broker => broker.registerHead id level) } := by
  show change (register c.broker (fun id => .puddleHead (.create id name level coverage anchor))
    fun id broker => broker.registerHead id level) c = _
  unfold change
  rw [register_ok hc hb]

/-- To add a node never fails, and the node begins as it is described. -/
theorem exists_fogNode_ok (hc : c.registry.Catalogued c.broker)
    (hb : c.registry.broker c.broker = .ok b) (spec : NodeSpec) : ∃ motion generator,
    spec.Begins motion ∧ Builder.fogNode spec c = .ok c.registry.nextId
      { c with
        registry := noted c.registry c.broker
          (fun id => .fogNode (.create id spec.name spec.level motion spec.characteristics))
          (fun id broker => broker.registerNode id)
        generator } := by
  obtain ⟨motion, generator, hbegins, heq⟩ := exists_fogNode_eq spec c
  refine ⟨motion, generator, hbegins, ?_⟩
  rw [heq]
  unfold change
  rw [register_ok hc hb]

/-- A broker alone has nothing to note. -/
theorem catalogued_start {settings : Settings} (h : Builder.start settings = .ok c) :
    c.registry.Catalogued c.broker ∧ c.registry.Counted c.broker := by
  obtain ⟨-, rfl⟩ := start_eq_ok h
  have honly : ∀ {k e}, ((⟨.empty, 2⟩ : Registry).put 1 (.broker (.create 1))).entities.get? k =
      some e → k = 1 ∧ e = .broker (.create 1) := fun he =>
    (get?_put_cases he).resolve_right fun hc => nomatch hc.2
  refine ⟨⟨fun he => ?_, fun hh => ?_, fun hk => ?_, fun hb l => ?_, fun hb l a => ?_⟩,
    fun b hb k => ?_⟩
  · rw [(honly he).1]
    exact Nat.lt_succ_self 1
  · cases (honly (puddleHead_eq_ok_iff.1 hh)).2
  · obtain ⟨e, he, -⟩ := kind_eq_ok_iff.1 hk
    exact (honly he).1
  · cases (honly (broker_eq_ok_iff.1 hb)).2
    exact List.Pairwise.nil
  · cases (honly (broker_eq_ok_iff.1 hb)).2
    refine iff_of_false nofun fun ⟨e, he, hl⟩ => ?_
    rw [(honly he).2] at hl
    cases hl
  · cases (honly (broker_eq_ok_iff.1 hb)).2
    rw [kind_eq_ok_iff]
    refine iff_of_false (SortedSet.not_mem_empty k) fun ⟨e, he, hkind⟩ => ?_
    rw [(honly he).2] at hkind
    cases hkind

/-- Whatever the calls, a builder's broker knows all heads and nodes. -/
theorem Made.catalogued {admits : Time → Payload → Prop} (h : Made admits c) :
    c.registry.Catalogued c.broker ∧ c.registry.Counted c.broker := by
  induction h with
  | start h => exact catalogued_start h
  | @puddleHead c hc name level coverage anchor ih =>
    obtain ⟨b, hb⟩ := kind_eq_broker_iff.1 hc.draft.broker
    rw [puddleHead_ok ih.1 hb]
    dsimp only [stateOf]
    refine ⟨catalogued_noted ih.1 hb (fun id => ⟨nofun, fun h hh => ?_⟩) fun id b l => ?_,
      counted_noted ih.1 ih.2 hb fun id b k => ?_⟩
    · cases hh
      exact .create _ _ _ _ _
    · rw [headsAt_registerHead]
      simp only [Entity.headLevel?, PuddleHead.create, Option.some.injEq]
    · exact (or_iff_left fun hk => nomatch hk.2).symm
  | @fogNode c hc spec ih =>
    obtain ⟨b, hb⟩ := kind_eq_broker_iff.1 hc.draft.broker
    obtain ⟨motion, generator, -, hadded⟩ := exists_fogNode_ok ih.1 hb spec
    rw [hadded]
    dsimp only [stateOf]
    refine ⟨catalogued_noted ih.1 hb (fun id => ⟨nofun, nofun⟩) fun id b l => ?_,
      counted_noted ih.1 ih.2 hb fun id b k => ?_⟩
    · exact (List.append_nil _).symm
    · unfold Broker.registerNode
      simp only [SortedSet.mem_insert]
      rw [or_comm]
      exact or_congr_right (and_iff_left rfl).symm
  | @attach c hc child parent ih =>
    have hamend := Amends.adoptChild parent child c.registry
    rw [stateOf_attach]
    exact ⟨ih.1.amend hc.draft.broker hamend, ih.2.amend hc.draft.broker hamend⟩
  | @link c hc first second latency bandwidth ih =>
    have hamend := amends_addLink c.broker first second latency bandwidth c.registry
    rw [stateOf_link]
    exact ⟨ih.1.amend hc.draft.broker hamend, ih.2.amend hc.draft.broker hamend⟩
  | schedule _ _ ih => exact ih

/-- To add a head never fails. -/
theorem Made.puddleHead_ok {admits : Time → Payload → Prop} (hc : Made admits c) (name : String)
    (level : Level) (coverage : Polygon Float) (anchor : Point Float) :
    Builder.puddleHead name level coverage anchor c = .ok c.registry.nextId
      { c with
        registry := noted c.registry c.broker
          (fun id => .puddleHead (.create id name level coverage anchor))
          (fun id broker => broker.registerHead id level) } := by
  obtain ⟨b, hb⟩ := kind_eq_broker_iff.1 hc.draft.broker
  exact Builder.puddleHead_ok hc.catalogued.1 hb name level coverage anchor

/-- To add a node never fails, and the node begins as it is described. -/
theorem Made.exists_fogNode_ok {admits : Time → Payload → Prop} (hc : Made admits c)
    (spec : NodeSpec) : ∃ motion generator,
      spec.Begins motion ∧ Builder.fogNode spec c = .ok c.registry.nextId
        { c with
          registry := noted c.registry c.broker
            (fun id => .fogNode (.create id spec.name spec.level motion spec.characteristics))
            (fun id broker => broker.registerNode id)
          generator } := by
  obtain ⟨b, hb⟩ := kind_eq_broker_iff.1 hc.draft.broker
  exact Builder.exists_fogNode_ok hc.catalogued.1 hb spec

/-- Putting a node into its first puddle adds no more than a link. -/
theorem amends_placeInitially (settings : Settings) (broker : EntityId) (n : FogNode) :
    Amends (placeInitially settings broker n) := by
  refine .bind (.read _) fun found => ?_
  cases found with
  | none => exact .pure ()
  | some head =>
    refine .bind (.discard (.join _ _)) fun _ => .ite ?_ (.pure ())
    exact .discard (amends_addLink _ _ _ _ _)

/-- What every round of placing keeps holds when all nodes have been placed. -/
theorem Placing.forM_keeps {s : Settings} {l : List FogNode} {u : Unit}
    {P : List FogNode → Registry → Prop}
    (hround : ∀ {n rest v r q}, Placing r broker (n :: rest) → r.Catalogued broker →
      placeInitially s broker n r = .ok v q → Amended r q → P (n :: rest) r → P rest q)
    (hr : Placing r broker l) (hcat : r.Catalogued broker)
    (h : l.forM (placeInitially s broker) r = .ok u q) (hP : P l r) : P [] q := by
  induction l generalizing r with
  | nil =>
    cases h
    exact hP
  | cons n rest ih =>
    obtain ⟨v, p, hplace, h⟩ := forM_cons_eq_ok_iff.1 h
    have hamend := (amends_placeInitially s broker n).of_ok hplace
    exact ih (hr.next hplace) (hcat.amend hr.kind hamend) h (hround hr hcat hplace hamend hP)

/-- Completing a network adds no more than links. -/
theorem amended_of_build {s : Session World Payload} (h : c.build = .ok s) :
    Amended c.registry s.state.registry :=
  (Amends.forM (amends_placeInitially c.settings c.broker)).of_ok (placed_of_build h).1

/-- The broker of a finished network knows all heads and nodes. -/
theorem catalogued_of_build {admits : Time → Payload → Prop} {s : Session World Payload}
    (hc : Made admits c) (h : c.build = .ok s) :
    s.state.registry.Catalogued s.state.broker ∧ s.state.registry.Counted s.state.broker := by
  have hamend := amended_of_build h
  obtain ⟨hcat, hcount⟩ := hc.catalogued
  rw [(placed_of_build h).2.1]
  exact ⟨hcat.amend hc.draft.broker hamend, hcount.amend hc.draft.broker hamend⟩

end Builder

end FogNet
