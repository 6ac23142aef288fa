import FogNet.Proofs.Topology.Catalogue

/-!
# The tree of heads

In a registry that a builder has made the heads form trees (`Registry.Treed`): a parent is one level
above its children and lists them and nobody else, and two heads are buddies if and only if they are
different children of one parent. A head may be put below another one before or after it gets
children of its own: either way its new siblings are the heads below its new parent, which have no
other. A call on the builder either fails and leaves the registry as it was, or it adds an entity
without relatives (`Treed.put`) or puts a head without a parent below another one (`Treed.foster`).
-/

namespace FogNet

open Registry

variable {r q : Registry} {t : Touch} {k a b p parent child broker : EntityId} {e : Entity}
  {h g above below : PuddleHead} {l : List EntityId}

/-! ## Trees -/

/-- A head at the same place in the tree. -/
structure PuddleHead.SamePlace (h g : PuddleHead) : Prop where
  /-- It has the same number. -/
  id : g.id = h.id
  /-- It is on the same level. -/
  level : g.level = h.level
  /-- It has the same parent. -/
  parent : g.parent = h.parent
  /-- It lists the same children. -/
  children : g.children = h.children

namespace Registry

/-- A head has another one as its parent. -/
def Below (r : Registry) (parent child : EntityId) : Prop :=
  ∃ h, r.puddleHead child = .ok h ∧ h.parent = some parent

/-- The heads form trees, and links have two ends. -/
structure Treed (r : Registry) : Prop where
  /-- A parent is one level above. -/
  graded : ∀ {k h p}, r.puddleHead k = .ok h → h.parent = some p →
    ∃ g, r.puddleHead p = .ok g ∧ h.level = g.level + 1
  /-- A head lists the heads below it. -/
  listed : ∀ {k h a}, r.puddleHead k = .ok h → (a ∈ h.children ↔ r.Below k a)
  /-- The buddies of a head are the other heads below its parent. -/
  siblings : ∀ {k h a}, r.puddleHead k = .ok h →
    (a ∈ h.buddies ↔ a ≠ k ∧ ∃ p, r.Below p k ∧ r.Below p a)
  /-- The ends of a link are different. -/
  stretched : ∀ {k l}, r.link k = .ok l → l.first ≠ l.second

theorem below_iff (hh : r.puddleHead k = .ok h) : r.Below p k ↔ h.parent = some p := by
  constructor
  · rintro ⟨g, hg, hp⟩
    rwa [puddleHead_inj hh hg]
  · exact fun hp => ⟨h, hh, hp⟩

theorem Treed.exists_parent (hr : r.Treed) (hk : r.Below p k) : ∃ g, r.puddleHead p = .ok g := by
  obtain ⟨h, hh, hp⟩ := hk
  obtain ⟨g, hg, -⟩ := hr.graded hh hp
  exact ⟨g, hg⟩

end Registry

/-! ## Touches that leave the trees alone -/

/-- A touch that leaves heads where they are and links with the same ends. -/
structure Touch.Rooted (t : Touch) : Prop where
  /-- Heads stay at their places. -/
  head : ∀ k h, PuddleHead.SamePlace h (t.head k h)
  /-- Heads keep their buddies. -/
  buddies : ∀ k h, (t.head k h).buddies = h.buddies
  /-- Links keep their ends. -/
  link : ∀ k l, (t.link k l).first = l.first ∧ (t.link k l).second = l.second

namespace Touch.Rooted

variable {s : Touch}

theorem onBroker (id : EntityId) (f : Broker → Broker) : (Touch.onBroker id f).Rooted :=
  ⟨fun _ _ => ⟨rfl, rfl, rfl, rfl⟩, fun _ _ => rfl, fun _ _ => ⟨rfl, rfl⟩⟩

theorem andThen (hs : s.Rooted) (ht : t.Rooted) : (s.andThen t).Rooted := by
  refine ⟨fun k h => ⟨?_, ?_, ?_, ?_⟩, fun k h => ?_, fun k l => ⟨?_, ?_⟩⟩
  · exact (ht.head k _).id.trans (hs.head k h).id
  · exact (ht.head k _).level.trans (hs.head k h).level
  · exact (ht.head k _).parent.trans (hs.head k h).parent
  · exact (ht.head k _).children.trans (hs.head k h).children
  · exact (ht.buddies k _).trans (hs.buddies k h)
  · exact (ht.link k _).1.trans (hs.link k l).1
  · exact (ht.link k _).2.trans (hs.link k l).2

end Touch.Rooted

namespace Registry

theorem below_touch_iff (ht : ∀ k h, (t.head k h).parent = h.parent) :
    (r.touch t).Below p k ↔ r.Below p k := by
  constructor
  · rintro ⟨g, hg, hp⟩
    obtain ⟨h, hh, rfl⟩ := puddleHead_touch_iff.1 hg
    exact ⟨h, hh, (ht k h).symm.trans hp⟩
  · rintro ⟨h, hh, hp⟩
    exact ⟨_, puddleHead_touch hh, (ht k h).trans hp⟩

theorem Treed.touch (hr : r.Treed) (ht : t.Rooted) : (r.touch t).Treed := by
  have hbelow : ∀ {p k}, (r.touch t).Below p k ↔ r.Below p k :=
    below_touch_iff fun k h => (ht.head k h).parent
  refine ⟨fun {k g p} hg hp => ?_, fun {k g a} hg => ?_, fun {k g a} hg => ?_, fun {k m} hm => ?_⟩
  · obtain ⟨h, hh, rfl⟩ := puddleHead_touch_iff.1 hg
    obtain ⟨f, hf, hlevel⟩ := hr.graded hh ((ht.head k h).parent.symm.trans hp)
    refine ⟨_, puddleHead_touch hf, ?_⟩
    rw [(ht.head k h).level, (ht.head p f).level, hlevel]
  · obtain ⟨h, hh, rfl⟩ := puddleHead_touch_iff.1 hg
    rw [(ht.head k h).children, hr.listed hh, hbelow]
  · obtain ⟨h, hh, rfl⟩ := puddleHead_touch_iff.1 hg
    rw [ht.buddies, hr.siblings hh]
    simp only [hbelow]
  · obtain ⟨l, hl, rfl⟩ := link_touch_iff.1 hm
    rw [(ht.link k l).1, (ht.link k l).2]
    exact hr.stretched hl

end Registry

/-! ## Entities without relatives -/

/-- An entity that has no relatives yet; a link is between two others. -/
def Entity.Unrelated : Entity → Prop
  | .puddleHead h => h.parent = none ∧ h.children = [] ∧ h.buddies = .empty
  | .link l => l.first ≠ l.second
  | .fogNode _ => True
  | .broker _ => True

namespace Registry

theorem below_put_iff (hfree : r.contains a = false) (he : e.Unrelated) :
    (r.put a e).Below p k ↔ r.Below p k := by
  constructor
  · rintro ⟨h, hh, hp⟩
    rcases get?_put_cases (puddleHead_eq_ok_iff.1 hh) with ⟨-, rfl⟩ | ⟨-, hd⟩
    · rw [he.1] at hp
      cases hp
    · exact ⟨h, puddleHead_eq_ok_iff.2 hd, hp⟩
  · rintro ⟨h, hh, hp⟩
    exact ⟨h, puddleHead_put hfree hh, hp⟩

/-- Storing an entity without relatives under a free number leaves the trees alone. -/
theorem Treed.put (hr : r.Treed) (hfree : r.contains a = false) (he : e.Unrelated) :
    (r.put a e).Treed := by
  have hnone : ∀ {g}, r.puddleHead a ≠ .ok g := by
    intro g hg
    have hget := puddleHead_eq_ok_iff.1 hg
    rw [get?_eq_none_of_contains hfree] at hget
    cases hget
  refine ⟨fun {k h p} hh hp => ?_, fun {k h c} hh => ?_, fun {k h c} hh => ?_, fun {k l} hl => ?_⟩
  · rcases get?_put_cases (puddleHead_eq_ok_iff.1 hh) with ⟨-, rfl⟩ | ⟨-, hd⟩
    · rw [he.1] at hp
      cases hp
    · obtain ⟨g, hg, hlevel⟩ := hr.graded (puddleHead_eq_ok_iff.2 hd) hp
      exact ⟨g, puddleHead_put hfree hg, hlevel⟩
  · rw [below_put_iff hfree he]
    rcases get?_put_cases (puddleHead_eq_ok_iff.1 hh) with ⟨rfl, rfl⟩ | ⟨-, hd⟩
    · rw [he.2.1]
      refine iff_of_false List.not_mem_nil fun hbelow => ?_
      obtain ⟨g, hg⟩ := hr.exists_parent hbelow
      exact hnone hg
    · exact hr.listed (puddleHead_eq_ok_iff.2 hd)
  · simp only [below_put_iff hfree he]
    rcases get?_put_cases (puddleHead_eq_ok_iff.1 hh) with ⟨rfl, rfl⟩ | ⟨-, hd⟩
    · rw [he.2.2]
      refine iff_of_false (SortedSet.not_mem_empty c) ?_
      rintro ⟨-, p, ⟨g, hg, -⟩, -⟩
      exact hnone hg
    · exact hr.siblings (puddleHead_eq_ok_iff.2 hd)
  · rcases get?_put_cases (link_eq_ok_iff.1 hl) with ⟨-, rfl⟩ | ⟨-, hd⟩
    · exact he
    · exact hr.stretched (link_eq_ok_iff.2 hd)

theorem Treed.allocate (hr : r.Treed) : r.allocate.2.Treed :=
  ⟨hr.graded, hr.listed, hr.siblings, hr.stretched⟩

end Registry

/-! ## A head that gets a parent -/

namespace Touch

/-- A head becomes a sibling of some others. -/
def siblinghoods : List EntityId → EntityId → Touch
  | [], _ => nothing
  | a :: rest, child => (siblinghood a child).andThen (siblinghoods rest child)

/-- A head becomes a sibling of some others and is put below their parent. -/
def fostering (parent child : EntityId) (siblings members : List EntityId) : Touch :=
  (siblinghoods siblings child).andThen (adoption parent child members)

theorem samePlace_siblinghood (k : EntityId) (h : PuddleHead) :
    h.SamePlace ((siblinghood a b).head k h) := by
  unfold siblinghood andThen onHead PuddleHead.addBuddy
  simp only
  split_ifs <;> exact ⟨rfl, rfl, rfl, rfl⟩

theorem samePlace_siblinghoods (l : List EntityId) (child k : EntityId) (h : PuddleHead) :
    h.SamePlace ((siblinghoods l child).head k h) := by
  induction l generalizing h with
  | nil => exact ⟨rfl, rfl, rfl, rfl⟩
  | cons a rest ih =>
    have hfirst := samePlace_siblinghood (a := a) (b := child) k h
    have hrest := ih ((siblinghood a child).head k h)
    exact ⟨hrest.id.trans hfirst.id, hrest.level.trans hfirst.level,
      hrest.parent.trans hfirst.parent, hrest.children.trans hfirst.children⟩

/-- Between the new head and the others everybody becomes everybody's sibling. -/
theorem mem_siblinghoods (hid : h.id = k) : a ∈ ((siblinghoods l child).head k h).buddies ↔
    a ∈ h.buddies ∨ a ≠ k ∧ (k ∈ l ∧ a = child ∨ k = child ∧ a ∈ l) := by
  induction l generalizing h with
  | nil => simp [siblinghoods, nothing]
  | cons b rest ih =>
    have hid' := (samePlace_siblinghood (a := b) (b := child) k h).id.trans hid
    rw [siblinghoods]
    refine (ih hid').trans ?_
    rw [mem_siblinghood hid, List.mem_cons, List.mem_cons]
    tauto

theorem mem_children_addChild {members : List EntityId} :
    a ∈ (h.addChild child members).children ↔ a ∈ h.children ∨ a = child := by
  unfold PuddleHead.addChild
  simp only
  split_ifs with hin
  · rw [List.contains_iff_mem] at hin
    exact (or_iff_left_of_imp fun ha => ha ▸ hin).symm
  · rw [List.mem_append, List.mem_singleton]

variable {members : List EntityId}

theorem link_fostering (k : EntityId) (m : Link) :
    (fostering parent child l members).link k m = m := by
  show (siblinghoods l child).link k m = m
  induction l with
  | nil => rfl
  | cons a rest ih => exact ih

theorem level_fostering (k : EntityId) (h : PuddleHead) :
    ((fostering parent child l members).head k h).level = h.level :=
  (adoption_keeps parent child members k _).2.1.trans (samePlace_siblinghoods l child k h).level

theorem parent_fostering (k : EntityId) (h : PuddleHead) :
    ((fostering parent child l members).head k h).parent =
      if k = child then some parent else h.parent := by
  rw [← (samePlace_siblinghoods l child k h).parent]
  exact parent_adoption k _

theorem buddies_fostering (k : EntityId) (h : PuddleHead) :
    ((fostering parent child l members).head k h).buddies =
      ((siblinghoods l child).head k h).buddies :=
  (adoption_keeps parent child members k _).2.2.1

theorem mem_children_fostering (k : EntityId) (h : PuddleHead) :
    a ∈ ((fostering parent child l members).head k h).children ↔
      a ∈ h.children ∨ k = parent ∧ a = child := by
  rw [← (samePlace_siblinghoods l child k h).children]
  have hchildren : ∀ f : PuddleHead,
      (if k = child then f.setParent parent else f).children = f.children := by
    intro f
    split_ifs <;> rfl
  unfold fostering adoption andThen onHead
  simp only [hchildren]
  by_cases hk : k = parent
  · rw [if_pos hk, mem_children_addChild]
    simp only [hk, true_and]
  · rw [if_neg hk]
    simp only [hk, false_and, or_false]

end Touch

namespace Registry

variable {members : List EntityId}

/-- Only the new child gets a parent. -/
theorem below_fostering_iff (hc : r.puddleHead child = .ok below) (hfree : below.parent = none) :
    (r.touch (.fostering parent child l members)).Below p k ↔
      r.Below p k ∨ p = parent ∧ k = child := by
  by_cases hk : k = child
  · subst hk
    have hnone : ¬ r.Below p k := by
      rw [below_iff hc, hfree]
      exact nofun
    rw [below_iff (puddleHead_touch hc), Touch.parent_fostering, if_pos rfl, or_iff_right hnone,
      Option.some.injEq, eq_comm]
    exact (and_iff_left rfl).symm
  · rw [or_iff_left fun hc => hk hc.2]
    constructor
    · rintro ⟨g, hg, hp⟩
      obtain ⟨h, hh, rfl⟩ := puddleHead_touch_iff.1 hg
      rw [Touch.parent_fostering, if_neg hk] at hp
      exact ⟨h, hh, hp⟩
    · rintro ⟨h, hh, hp⟩
      refine ⟨_, puddleHead_touch hh, ?_⟩
      rwa [Touch.parent_fostering, if_neg hk]

/-- Putting a head without a parent below one of the level above keeps the trees. -/
theorem Treed.foster (hr : r.Treed) (hw : r.Wired) (hp : r.puddleHead parent = .ok above)
    (hc : r.puddleHead child = .ok below) (hfree : below.parent = none)
    (hlevel : below.level = above.level + 1) :
    (r.touch (.fostering parent child above.children members)).Treed := by
  have hbelow : ∀ {p k}, (r.touch (.fostering parent child above.children members)).Below p k ↔
      r.Below p k ∨ p = parent ∧ k = child := below_fostering_iff hc hfree
  have horphan : ∀ {p}, ¬ r.Below p child := fun hb => by
    rw [below_iff hc, hfree] at hb
    cases hb
  refine ⟨fun {k g p} hg hgp => ?_, fun {k g a} hg => ?_, fun {k g a} hg => ?_, fun {k m} hm => ?_⟩
  · obtain ⟨h, hh, rfl⟩ := puddleHead_touch_iff.1 hg
    rw [Touch.parent_fostering] at hgp
    split_ifs at hgp with hk
    · obtain rfl := Option.some.inj hgp
      subst hk
      refine ⟨_, puddleHead_touch hp, ?_⟩
      rw [Touch.level_fostering, Touch.level_fostering, puddleHead_inj hh hc, hlevel]
    · obtain ⟨f, hf, hgrade⟩ := hr.graded hh hgp
      refine ⟨_, puddleHead_touch hf, ?_⟩
      rw [Touch.level_fostering, Touch.level_fostering, hgrade]
  · obtain ⟨h, hh, rfl⟩ := puddleHead_touch_iff.1 hg
    rw [Touch.mem_children_fostering, hr.listed hh, hbelow]
  · obtain ⟨h, hh, rfl⟩ := puddleHead_touch_iff.1 hg
    rw [Touch.buddies_fostering, Touch.mem_siblinghoods (hw.id_puddleHead hh), hr.siblings hh,
      hr.listed hp, hr.listed hp]
    simp only [hbelow]
    constructor
    · rintro (⟨hne, p, hpk, hpa⟩ | ⟨hne, ⟨hk, rfl⟩ | ⟨rfl, ha⟩⟩)
      · exact ⟨hne, p, .inl hpk, .inl hpa⟩
      · exact ⟨hne, parent, .inl hk, .inr ⟨rfl, rfl⟩⟩
      · exact ⟨hne, parent, .inr ⟨rfl, rfl⟩, .inl ha⟩
    · rintro ⟨hne, p, hpk | ⟨rfl, rfl⟩, hpa | ⟨hpp, rfl⟩⟩
      · exact .inl ⟨hne, p, hpk, hpa⟩
      · exact .inr ⟨hne, .inl ⟨hpp ▸ hpk, rfl⟩⟩
      · exact .inr ⟨hne, .inr ⟨rfl, hpa⟩⟩
      · exact absurd rfl hne
  · obtain ⟨l, hl, rfl⟩ := link_touch_iff.1 hm
    rw [Touch.link_fostering]
    exact hr.stretched hl

end Registry

/-! ## Calls that fail or succeed -/

namespace Change

variable {α : Type} {fault : Fault} {x : Change α} {allowed : Prop} {result : α → Registry → Prop}

/-- A step does something if and only if it is allowed; if it is not, it fails and changes
nothing. -/
def Decides (r : Registry) (x : Change α) (allowed : Prop) (result : α → Registry → Prop) : Prop :=
  (¬ allowed ∧ ∃ fault, x r = .error fault r) ∨ allowed ∧ ∃ a q, x r = .ok a q ∧ result a q

namespace Decides

theorem ok (h : Decides r x allowed result) (ha : allowed) : ∃ a q, x r = .ok a q ∧ result a q := by
  rcases h with ⟨hna, -⟩ | ⟨-, hok⟩
  · exact absurd ha hna
  · exact hok

theorem error (h : Decides r x allowed result) (hna : ¬ allowed) :
    ∃ fault, x r = .error fault r := by
  rcases h with ⟨-, herror⟩ | ⟨ha, -⟩
  · exact herror
  · exact absurd ha hna

theorem of_error (h : Decides r x allowed result) (hx : x r = .error fault q) :
    ¬ allowed ∧ q = r := by
  rcases h with ⟨hna, fault', herror⟩ | ⟨-, a, q', hok, -⟩
  · rw [herror] at hx
    cases hx
    exact ⟨hna, rfl⟩
  · rw [hok] at hx
    cases hx

/-- What holds before and of all results holds afterwards. -/
theorem stateOf {P : Registry → Prop} (h : Decides r x allowed result) (hr : P r)
    (hresult : ∀ a q, result a q → P q) : P (stateOf (x r)) := by
  rcases h with ⟨-, fault, herror⟩ | ⟨-, a, q, hok, hq⟩
  · rwa [herror]
  · rw [hok]
    exact hresult a q hq

theorem guard {c : Prop} [Decidable c] {f : Unit → Change α} (hc : c → ¬ allowed)
    (hf : ¬ c → Decides r (f ()) allowed result) :
    Decides r (if c then fail fault >>= f else f ()) allowed result := by
  by_cases h : c
  · rw [if_pos h]
    exact .inl ⟨hc h, fault, rfl⟩
  · rw [if_neg h]
    exact hf h

theorem bind_of_ok {β : Type} {y : Change β} {b : β} {f : β → Change α} (hy : y r = .ok b r)
    (hf : Decides r (f b) allowed result) : Decides r (y >>= f) allowed result := by
  unfold Decides
  rw [Change.bind_of_ok hy]
  exact hf

theorem bind_of_error {β : Type} {y : Change β} {f : β → Change α} (hy : y r = .error fault r)
    (hna : ¬ allowed) : Decides r (y >>= f) allowed result :=
  .inl ⟨hna, fault, Change.bind_of_error hy⟩

theorem read {β : Type} {look : Registry → Except Fault β} {f : β → Change α}
    (hnone : ∀ fault, look r = .error fault → ¬ allowed)
    (hf : ∀ b, look r = .ok b → Decides r (f b) allowed result) :
    Decides r (read look >>= f) allowed result := by
  cases hb : look r with
  | error fault => exact .bind_of_error (read_of_error hb) (hnone fault hb)
  | ok b => exact .bind_of_ok (read_of_ok hb) (hf b hb)

end Decides

theorem siblings_ok (hl : ∀ a ∈ l, ∃ g, r.puddleHead a = .ok g)
    (hc : r.puddleHead child = .ok below) :
    siblings l child r = .ok () (r.touch (.siblinghoods l child)) := by
  induction l generalizing r below with
  | nil => exact congrArg _ (touch_nothing r).symm
  | cons a rest ih =>
    obtain ⟨⟨g, hg⟩, hrest⟩ := List.forall_mem_cons.1 hl
    have hpair : (updateHead a (·.addBuddy child) >>= fun _ => updateHead child (·.addBuddy a)) r =
        .ok () (r.touch (.siblinghood a child)) := by
      rw [bind_of_ok (updateHead_of_ok _ hg), updateHead_of_ok _ (puddleHead_touch hc), touch_touch]
      rfl
    have hall : ∀ b ∈ rest, ∃ g, (r.touch (.siblinghood a child)).puddleHead b = .ok g := by
      intro b hb
      obtain ⟨g, hg⟩ := hrest b hb
      exact ⟨_, puddleHead_touch hg⟩
    refine (bind_of_ok hpair).trans ((ih hall (puddleHead_touch hc)).trans ?_)
    rw [touch_touch]
    rfl

/-- Whether a head may be put below another one: it has no parent and is on the next level. -/
def Adoptable (r : Registry) (parent child : EntityId) : Prop :=
  ∃ above below, r.puddleHead parent = .ok above ∧ r.puddleHead child = .ok below ∧
    below.parent = none ∧ below.level = above.level + 1

/-- A head that may be put below another one gets all heads below it as siblings. -/
theorem decides_adoptChild (hr : r.Treed) (parent child : EntityId) :
    Decides r (adoptChild parent child) (Adoptable r parent child) fun _ q => ∃ above below,
      r.puddleHead parent = .ok above ∧ r.puddleHead child = .ok below ∧ below.parent = none ∧
        below.level = above.level + 1 ∧
        q = r.touch (.fostering parent child above.children below.members) := by
  unfold adoptChild
  refine .guard (fun hsame => ?_) fun _ => .read (fun fault hp => ?_) fun above hp =>
    .read (fun fault hc => ?_) fun below hc => .guard (fun hparent => ?_) fun hparent =>
      .guard (fun hlevel => ?_) fun hlevel => .inr ?_
  · rintro ⟨above, below, hp, hc, -, hlevel⟩
    rw [hsame] at hp
    rw [puddleHead_inj hp hc] at hlevel
    exact absurd hlevel (Nat.ne_of_lt (Nat.lt_succ_self _))
  · rintro ⟨above, below, hp', -⟩
    cases hp.symm.trans hp'
  · rintro ⟨above', below, -, hc', -⟩
    cases hc.symm.trans hc'
  · rintro ⟨above', below', -, hc', hfree, -⟩
    rw [puddleHead_inj hc hc', hfree] at hparent
    cases hparent
  · rintro ⟨above', below', hp', hc', -, hlevel'⟩
    rw [puddleHead_inj hp hp', puddleHead_inj hc hc'] at hlevel
    exact hlevel hlevel'
  · have hfree := Option.not_isSome_iff_eq_none.1 hparent
    have hlevel := not_not.1 hlevel
    have hlisted : ∀ a ∈ above.children, ∃ g, r.puddleHead a = .ok g := by
      intro a ha
      obtain ⟨g, hg, -⟩ := (hr.listed hp).1 ha
      exact ⟨g, hg⟩
    refine ⟨⟨above, below, hp, hc, hfree, hlevel⟩, (), _, ?_, above, below, hp, hc, hfree, hlevel,
      rfl⟩
    refine (bind_of_ok (siblings_ok hlisted hc)).trans ?_
    rw [bind_of_ok (updateHead_of_ok _ (puddleHead_touch hp)),
      updateHead_of_ok _ (puddleHead_touch (puddleHead_touch hc)), touch_touch, touch_touch]
    rfl

end Change

namespace Touch

/-- A node or a head notes a link. -/
def cabling (id link : EntityId) : Touch :=
  { nothing with
    node := fun k n => if k = id then n.attachLink link else n
    head := fun k h => if k = id then h.attachLink link else h }

theorem Rooted.cabling (id link : EntityId) : (Touch.cabling id link).Rooted := by
  refine ⟨fun k h => ?_, fun k h => ?_, fun _ _ => ⟨rfl, rfl⟩⟩
  · unfold Touch.cabling
    dsimp only
    split_ifs <;> exact ⟨rfl, rfl, rfl, rfl⟩
  · unfold Touch.cabling
    dsimp only
    split_ifs <;> rfl

/-- Two ends and the broker note a link. -/
def tying (broker a b link : EntityId) : Touch :=
  ((cabling a link).andThen (cabling b link)).andThen (onBroker broker (·.registerLink link))

theorem Rooted.tying (broker a b link : EntityId) : (Touch.tying broker a b link).Rooted :=
  .andThen (.andThen (.cabling a link) (.cabling b link)) (.onBroker broker _)

end Touch

namespace Builder

open Change

variable {id link : EntityId} {latency bandwidth : Float}

theorem attachLink_ok (he : r.entity id = .ok e) :
    updateEntity id (·.attachLink link) r = .ok () (r.touch (.cabling id link)) := by
  have hsame : e.attachLink link = (Touch.cabling id link).entity id e := by
    cases e with
    | fogNode n => exact congrArg Entity.fogNode (if_pos rfl).symm
    | puddleHead h => exact congrArg Entity.puddleHead (if_pos rfl).symm
    | link | broker => rfl
  refine (bind_of_ok (read_of_ok he)).trans ?_
  show EStateM.Result.ok () (r.put id (e.attachLink link)) = _
  rw [hsame]
  refine congrArg _ (put_eq_touch (entity_eq_ok_iff.1 he) fun j d hj => ?_)
  cases d with
  | fogNode n => exact congrArg Entity.fogNode (if_neg hj)
  | puddleHead h => exact congrArg Entity.puddleHead (if_neg hj)
  | link | broker => rfl

theorem checkEnd_of_sited (hk : r.Sited k) : checkEnd a b k r = .ok () r := by
  unfold checkEnd
  rcases hk with hk | hk
  · rw [bind_of_ok (read_of_ok hk)]
    rfl
  · rw [bind_of_ok (read_of_ok hk)]
    rfl

theorem checkEnd_of_unsited (hk : ¬ r.Sited k) : ∃ fault, checkEnd a b k r = .error fault r := by
  unfold checkEnd
  cases hκ : r.kind k with
  | error fault => exact ⟨fault, bind_of_error (read_of_error hκ)⟩
  | ok κ =>
    rw [bind_of_ok (read_of_ok hκ)]
    cases κ with
    | fogNode => exact absurd (.inl hκ) hk
    | puddleHead => exact absurd (.inr hκ) hk
    | link | broker => exact ⟨_, rfl⟩

/-- An end of a link is refused unless it is a node or a head. -/
theorem decides_checkEnd {α : Type} {allowed : Prop} {result : α → Registry → Prop}
    {f : Unit → Change α} (hk : ¬ r.Sited k → ¬ allowed)
    (hf : r.Sited k → Decides r (f ()) allowed result) :
    Decides r (checkEnd a b k >>= f) allowed result := by
  by_cases hsited : r.Sited k
  · exact .bind_of_ok (checkEnd_of_sited hsited) (hf hsited)
  · obtain ⟨fault, hfail⟩ := checkEnd_of_unsited (a := a) (b := b) hsited
    exact .bind_of_error hfail (hk hsited)

/-- Whether a link may be added: its ends are two nodes or heads, and its weights make sense. -/
def Linkable (r : Registry) (a b : EntityId) (latency bandwidth : Float) : Prop :=
  a ≠ b ∧ (0 ≤ latency ∧ 0 < bandwidth) ∧ r.Sited a ∧ r.Sited b

theorem entity_of_sited (hk : r.Sited k) : ∃ e, r.entity k = .ok e := by
  obtain ⟨e, -, he, -⟩ := position_of_sited hk
  exact ⟨e, he⟩

/-- What adding a link leaves behind: the new link, and its ends and the broker have noted it. -/
def linked (r : Registry) (broker a b : EntityId) (latency bandwidth : Float) : Registry :=
  (r.allocate.2.put r.nextId (.link (.create r.nextId a b latency bandwidth))).touch
    (.tying broker a b r.nextId)

/-- A new link is stored under the next number, and its ends and the broker note it. -/
theorem linked_ok (hr : r.Catalogued broker) (hbroker : r.kind broker = .ok .broker)
    (ha : r.Sited a) (hb : r.Sited b) : (do
      let id ← Change.allocate
      Change.insert id (.link (.create id a b latency bandwidth))
      Change.updateEntity a (·.attachLink id)
      Change.updateEntity b (·.attachLink id)
      Change.updateBroker broker (·.registerLink id)
      return id : Change EntityId) r = .ok r.nextId (linked r broker a b latency bandwidth) := by
  have hfree : r.allocate.2.contains r.nextId = false := contains_nextId hr
  have ha := sited_put (e := .link (.create r.nextId a b latency bandwidth)) hfree ha
  have hb := sited_put (e := .link (.create r.nextId a b latency bandwidth)) hfree hb
  obtain ⟨c, hc⟩ := kind_eq_broker_iff.1
    (kind_put (e := .link (.create r.nextId a b latency bandwidth)) hfree hbroker)
  obtain ⟨e, he⟩ := entity_of_sited ha
  obtain ⟨d, hd⟩ := entity_of_sited (sited_touch_iff (t := .cabling a r.nextId) |>.2 hb)
  rw [bind_of_ok (show Change.allocate r = .ok r.nextId r.allocate.2 from rfl),
    bind_of_ok ((insert_eq_ok_iff (u := ())).2 ⟨hfree, rfl⟩), bind_of_ok (attachLink_ok he),
    bind_of_ok (attachLink_ok hd),
    bind_of_ok (updateBroker_of_ok _ (broker_touch (broker_touch hc))), touch_touch, touch_touch]
  rfl

/-- A link that may be added gets the next number. -/
theorem decides_addLink (hr : r.Catalogued broker) (hbroker : r.kind broker = .ok .broker)
    (a b : EntityId) (latency bandwidth : Float) :
    Decides r (addLink broker a b latency bandwidth) (Linkable r a b latency bandwidth) fun id q =>
      id = r.nextId ∧ q = linked r broker a b latency bandwidth := by
  unfold addLink
  refine .guard (fun hsame h => h.1 hsame) fun hne => .guard (fun hbad h => hbad h.2.1) fun hgood =>
    decides_checkEnd (fun hbad h => hbad h.2.2.1) fun ha =>
      decides_checkEnd (fun hbad h => hbad h.2.2.2) fun hb => .inr ?_
  exact ⟨⟨hne, not_not.1 hgood, ha, hb⟩, _, _, linked_ok hr hbroker ha hb, rfl, rfl⟩

/-- A new link between two others leaves the trees alone. -/
theorem treed_linked (hr : r.Treed) (hcat : r.Catalogued broker) (hne : a ≠ b) :
    (linked r broker a b latency bandwidth).Treed := by
  have hnew : (Entity.link (.create r.nextId a b latency bandwidth)).Unrelated := hne
  exact (hr.allocate.put (contains_nextId hcat) hnew).touch (.tying broker a b r.nextId)

/-! ## Builders -/

/-- A new entity without relatives leaves the trees alone. -/
theorem treed_noted {make : EntityId → Entity} {note : EntityId → Broker → Broker}
    (hr : r.Treed) (hcat : r.Catalogued broker) (hmake : ∀ id, (make id).Unrelated) :
    (noted r broker make note).Treed :=
  (hr.allocate.put (contains_nextId hcat) (hmake _)).touch (.onBroker broker (note r.nextId))

theorem treed_start {settings : Settings} {c : Builder} (h : Builder.start settings = .ok c) :
    c.registry.Treed := by
  have hempty : Treed ⟨.empty, 2⟩ := by
    refine ⟨fun hh => ?_, fun hh => ?_, fun hh => ?_, fun hl => ?_⟩
    · cases puddleHead_eq_ok_iff.1 hh
    · cases puddleHead_eq_ok_iff.1 hh
    · cases puddleHead_eq_ok_iff.1 hh
    · cases link_eq_ok_iff.1 hl
  obtain ⟨-, rfl⟩ := start_eq_ok h
  exact hempty.put rfl trivial

/-- Whatever the calls, the heads form trees. -/
theorem Made.treed {admits : Time → Payload → Prop} {c : Builder} (h : Made admits c) :
    c.registry.Treed := by
  induction h with
  | start h => exact treed_start h
  | @puddleHead c hc name level coverage anchor ih =>
    have hnew : ∀ id, (Entity.puddleHead (.create id name level coverage anchor)).Unrelated :=
      fun _ => ⟨rfl, rfl, rfl⟩
    rw [hc.puddleHead_ok]
    dsimp only [stateOf]
    exact treed_noted ih hc.catalogued.1 hnew
  | @fogNode c hc spec ih =>
    obtain ⟨motion, generator, -, hadded⟩ := hc.exists_fogNode_ok spec
    rw [hadded]
    dsimp only [stateOf]
    exact treed_noted ih hc.catalogued.1 fun _ => trivial
  | @attach c hc child parent ih =>
    rw [stateOf_attach]
    refine (decides_adoptChild ih parent child).stateOf ih ?_
    rintro _ q ⟨above, below, hp, hc', hfree, hlevel, rfl⟩
    exact ih.foster hc.draft.orderly.wired hp hc' hfree hlevel
  | @link c hc first second latency bandwidth ih =>
    rw [stateOf_link]
    have hdecides := decides_addLink hc.catalogued.1 hc.draft.broker first second latency bandwidth
    rcases hdecides with ⟨-, fault, herror⟩ | ⟨hlinkable, id, q, hok, -, rfl⟩
    · rw [herror]
      exact ih
    · rw [hok]
      exact treed_linked ih hc.catalogued.1 hlinkable.1
  | schedule _ _ ih => exact ih

end Builder

end FogNet
