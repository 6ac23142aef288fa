import FogNet.Proofs.Collection
import FogNet.Proofs.Registry.Lookup

/-!
# Touches

A `Touch` changes the records of all entities at once, each by its number. It adds no entity, takes
none out and changes no kind. Every reaction to a message comes down to one touch of the registry,
so what a reaction does to a node or a head is read off a function on its record.
-/

namespace FogNet

/-- A change of every record by the number of its entity. -/
@[ext] structure Touch where
  /-- What becomes of a node. -/
  node : EntityId → FogNode → FogNode
  /-- What becomes of a head. -/
  head : EntityId → PuddleHead → PuddleHead
  /-- What becomes of a link. -/
  link : EntityId → Link → Link
  /-- What becomes of the broker. -/
  broker : EntityId → Broker → Broker

namespace Touch

/-- The touch that changes nothing. -/
def nothing : Touch := ⟨fun _ n => n, fun _ h => h, fun _ l => l, fun _ b => b⟩

/-- One touch after another. -/
def andThen (s t : Touch) : Touch :=
  ⟨fun k n => t.node k (s.node k n), fun k h => t.head k (s.head k h),
    fun k l => t.link k (s.link k l), fun k b => t.broker k (s.broker k b)⟩

/-- The change of a single node. -/
def onNode (id : EntityId) (f : FogNode → FogNode) : Touch :=
  { nothing with node := fun k n => if k = id then f n else n }

/-- The change of a single head. -/
def onHead (id : EntityId) (f : PuddleHead → PuddleHead) : Touch :=
  { nothing with head := fun k h => if k = id then f h else h }

/-- The change of a single link. -/
def onLink (id : EntityId) (f : Link → Link) : Touch :=
  { nothing with link := fun k l => if k = id then f l else l }

/-- The change of a single broker. -/
def onBroker (id : EntityId) (f : Broker → Broker) : Touch :=
  { nothing with broker := fun k b => if k = id then f b else b }

/-- What becomes of an entity. -/
def entity (t : Touch) (k : EntityId) : Entity → Entity
  | .fogNode n => .fogNode (t.node k n)
  | .puddleHead h => .puddleHead (t.head k h)
  | .link l => .link (t.link k l)
  | .broker b => .broker (t.broker k b)

theorem entity_nothing (k : EntityId) (e : Entity) : nothing.entity k e = e := by
  cases e <;> rfl

theorem entity_andThen (s t : Touch) (k : EntityId) (e : Entity) :
    (s.andThen t).entity k e = t.entity k (s.entity k e) := by
  cases e <;> rfl

/-- Changing a node leaves all standings as they are if its own stays. -/
theorem standing_onNode {id k : EntityId} {f : FogNode → FogNode}
    (hf : ∀ n, (f n).standing = n.standing) (n : FogNode) :
    ((onNode id f).node k n).standing = n.standing := by
  unfold onNode
  simp only
  split_ifs
  · exact hf n
  · rfl

theorem kind_entity (t : Touch) (k : EntityId) (e : Entity) : (t.entity k e).kind = e.kind := by
  cases e <;> rfl

end Touch

namespace Registry

/-- The registry with every record changed. -/
def touch (r : Registry) (t : Touch) : Registry :=
  { r with entities := r.entities.mapEntries t.entity }

variable {r : Registry} {t s : Touch} {k : EntityId}

theorem get?_touch (r : Registry) (t : Touch) (k : EntityId) :
    (r.touch t).entities.get? k = (r.entities.get? k).map (t.entity k) :=
  SortedMap.get?_mapEntries _ _ _

@[simp] theorem touch_nothing (r : Registry) : r.touch .nothing = r := by
  have h : Touch.nothing.entity = fun _ e => e := by
    funext k e
    exact Touch.entity_nothing k e
  unfold touch
  rw [h, SortedMap.mapEntries_id]

@[simp] theorem touch_touch (r : Registry) (s t : Touch) :
    (r.touch s).touch t = r.touch (s.andThen t) := by
  have h : (s.andThen t).entity = fun k e => t.entity k (s.entity k e) := by
    funext k e
    exact Touch.entity_andThen s t k e
  unfold touch
  rw [h, SortedMap.mapEntries_mapEntries]

theorem kind_touch (r : Registry) (t : Touch) (k : EntityId) : (r.touch t).kind k = r.kind k := by
  unfold kind entity
  rw [get?_touch]
  cases r.entities.get? k with
  | none => rfl
  | some e => simp [Except.map, Touch.kind_entity]

/-! ## Look-ups after a touch -/

theorem fogNode_touch_iff {m : FogNode} :
    (r.touch t).fogNode k = .ok m ↔ ∃ n, r.fogNode k = .ok n ∧ m = t.node k n := by
  simp only [fogNode_eq_ok_iff, get?_touch, Option.map_eq_some_iff]
  constructor
  · rintro ⟨e, he, hm⟩
    cases e <;> simp_all [Touch.entity]
  · rintro ⟨n, hn, rfl⟩
    exact ⟨_, hn, rfl⟩

theorem puddleHead_touch_iff {g : PuddleHead} :
    (r.touch t).puddleHead k = .ok g ↔ ∃ h, r.puddleHead k = .ok h ∧ g = t.head k h := by
  simp only [puddleHead_eq_ok_iff, get?_touch, Option.map_eq_some_iff]
  constructor
  · rintro ⟨e, he, hm⟩
    cases e <;> simp_all [Touch.entity]
  · rintro ⟨h, hh, rfl⟩
    exact ⟨_, hh, rfl⟩

theorem link_touch_iff {m : Link} :
    (r.touch t).link k = .ok m ↔ ∃ l, r.link k = .ok l ∧ m = t.link k l := by
  simp only [link_eq_ok_iff, get?_touch, Option.map_eq_some_iff]
  constructor
  · rintro ⟨e, he, hm⟩
    cases e <;> simp_all [Touch.entity]
  · rintro ⟨l, hl, rfl⟩
    exact ⟨_, hl, rfl⟩

theorem broker_touch_iff {c : Broker} :
    (r.touch t).broker k = .ok c ↔ ∃ b, r.broker k = .ok b ∧ c = t.broker k b := by
  simp only [broker_eq_ok_iff, get?_touch, Option.map_eq_some_iff]
  constructor
  · rintro ⟨e, he, hm⟩
    cases e <;> simp_all [Touch.entity]
  · rintro ⟨b, hb, rfl⟩
    exact ⟨_, hb, rfl⟩

theorem fogNode_touch {n : FogNode} (h : r.fogNode k = .ok n) :
    (r.touch t).fogNode k = .ok (t.node k n) :=
  fogNode_touch_iff.2 ⟨n, h, rfl⟩

theorem puddleHead_touch {g : PuddleHead} (h : r.puddleHead k = .ok g) :
    (r.touch t).puddleHead k = .ok (t.head k g) :=
  puddleHead_touch_iff.2 ⟨g, h, rfl⟩

theorem broker_touch {b : Broker} (h : r.broker k = .ok b) :
    (r.touch t).broker k = .ok (t.broker k b) :=
  broker_touch_iff.2 ⟨b, h, rfl⟩

/-! ## Equal touches -/

/-- Two touches do the same to a registry if they agree on the records it holds. -/
theorem touch_congr (hnode : ∀ k n, r.fogNode k = .ok n → s.node k n = t.node k n)
    (hhead : ∀ k h, r.puddleHead k = .ok h → s.head k h = t.head k h)
    (hlink : s.link = t.link) (hbroker : s.broker = t.broker) : r.touch s = r.touch t := by
  have he : r.entities.mapEntries s.entity = r.entities.mapEntries t.entity := by
    refine SortedMap.ext_get? fun k => ?_
    rw [SortedMap.get?_mapEntries, SortedMap.get?_mapEntries]
    cases hk : r.entities.get? k with
    | none => rfl
    | some e =>
      cases e with
      | fogNode n => simp [Touch.entity, hnode k n (fogNode_eq_ok_iff.2 hk)]
      | puddleHead h => simp [Touch.entity, hhead k h (puddleHead_eq_ok_iff.2 hk)]
      | link l => simp [Touch.entity, hlink]
      | broker b => simp [Touch.entity, hbroker]
  unfold touch
  rw [he]

/-! ## Stored records as touches -/

/-- Storing what becomes of an entity in its place is a touch, if that touch changes no other. -/
theorem put_eq_touch {e : Entity} (h : r.entities.get? k = some e)
    (ht : ∀ j d, j ≠ k → t.entity j d = d) : r.put k (t.entity k e) = r.touch t := by
  have he : r.entities.insert k (t.entity k e) = r.entities.mapEntries t.entity := by
    refine SortedMap.ext_get? fun j => ?_
    rw [SortedMap.get?_insert, SortedMap.get?_mapEntries]
    by_cases hj : j = k
    · subst hj
      simp [h]
    · rw [if_neg hj]
      cases hg : r.entities.get? j with
      | none => rfl
      | some d => simp [ht j d hj]
  unfold put touch
  rw [he]

end Registry

end FogNet
