import FogNet.Membership.Consistency

/-!
# Look-ups

A look-up succeeds exactly when the number stands for an entity of the kind asked for, and the lists
of nodes and heads hold what the look-ups find. Where each entity carries the number it is stored
under, a list of entities is a list of numbers.
-/

namespace FogNet

theorem eq_ok_of_toOption {ε α : Type} {x : Except ε α} {a : α} (h : x.toOption = some a) :
    x = .ok a := by
  cases x with
  | error fault => cases h
  | ok b => rw [Option.some.inj h]

namespace Entity

/-- The number an entity carries. -/
def id : Entity → EntityId
  | fogNode n => n.id
  | puddleHead h => h.id
  | link l => l.id
  | broker b => b.id

theorem fogNode?_eq_some_iff {e : Entity} {n : FogNode} : e.fogNode? = some n ↔ e = fogNode n := by
  cases e <;> simp [fogNode?]

theorem puddleHead?_eq_some_iff {e : Entity} {h : PuddleHead} :
    e.puddleHead? = some h ↔ e = puddleHead h := by
  cases e <;> simp [puddleHead?]

theorem link?_eq_some_iff {e : Entity} {l : Link} : e.link? = some l ↔ e = link l := by
  cases e <;> simp [link?]

theorem broker?_eq_some_iff {e : Entity} {b : Broker} : e.broker? = some b ↔ e = broker b := by
  cases e <;> simp [broker?]

end Entity

namespace Registry

variable {r : Registry} {k : EntityId}

theorem entity_eq_ok_iff {e : Entity} : r.entity k = .ok e ↔ r.entities.get? k = some e := by
  unfold entity
  cases r.entities.get? k <;> simp

/-- A look-up finds what is stored in the form that its view undoes. -/
theorem lookup_eq_ok_iff {α : Type} {expected : EntityKind} {view : Entity → Option α}
    {make : α → Entity} (hview : ∀ e a, view e = some a ↔ e = make a) {a : α} :
    r.lookup expected view k = .ok a ↔ r.entities.get? k = some (make a) := by
  unfold lookup entity
  cases r.entities.get? k with
  | none => simp
  | some e =>
    rw [Option.some_inj, ← hview]
    cases h : view e <;> simp [h]

theorem fogNode_eq_ok_iff {n : FogNode} :
    r.fogNode k = .ok n ↔ r.entities.get? k = some (.fogNode n) :=
  lookup_eq_ok_iff fun _ _ => Entity.fogNode?_eq_some_iff

theorem puddleHead_eq_ok_iff {h : PuddleHead} :
    r.puddleHead k = .ok h ↔ r.entities.get? k = some (.puddleHead h) :=
  lookup_eq_ok_iff fun _ _ => Entity.puddleHead?_eq_some_iff

theorem link_eq_ok_iff {l : Link} : r.link k = .ok l ↔ r.entities.get? k = some (.link l) :=
  lookup_eq_ok_iff fun _ _ => Entity.link?_eq_some_iff

theorem broker_eq_ok_iff {b : Broker} :
    r.broker k = .ok b ↔ r.entities.get? k = some (.broker b) :=
  lookup_eq_ok_iff fun _ _ => Entity.broker?_eq_some_iff

/-! ## Kinds -/

theorem kind_eq_ok_iff {κ : EntityKind} :
    r.kind k = .ok κ ↔ ∃ e, r.entities.get? k = some e ∧ e.kind = κ := by
  unfold kind entity
  cases r.entities.get? k <;> simp [Except.map]

theorem kind_eq_fogNode_iff : r.kind k = .ok .fogNode ↔ ∃ n, r.fogNode k = .ok n := by
  simp only [kind_eq_ok_iff, fogNode_eq_ok_iff]
  constructor
  · rintro ⟨e, he, hk⟩
    cases e with
    | fogNode n => exact ⟨n, he⟩
    | _ => cases hk
  · rintro ⟨n, hn⟩
    exact ⟨_, hn, rfl⟩

theorem kind_eq_puddleHead_iff : r.kind k = .ok .puddleHead ↔ ∃ h, r.puddleHead k = .ok h := by
  simp only [kind_eq_ok_iff, puddleHead_eq_ok_iff]
  constructor
  · rintro ⟨e, he, hk⟩
    cases e with
    | puddleHead h => exact ⟨h, he⟩
    | _ => cases hk
  · rintro ⟨h, hh⟩
    exact ⟨_, hh, rfl⟩

theorem kind_eq_link_iff : r.kind k = .ok .link ↔ ∃ l, r.link k = .ok l := by
  simp only [kind_eq_ok_iff, link_eq_ok_iff]
  constructor
  · rintro ⟨e, he, hk⟩
    cases e with
    | link l => exact ⟨l, he⟩
    | _ => cases hk
  · rintro ⟨l, hl⟩
    exact ⟨_, hl, rfl⟩

theorem kind_eq_broker_iff : r.kind k = .ok .broker ↔ ∃ b, r.broker k = .ok b := by
  simp only [kind_eq_ok_iff, broker_eq_ok_iff]
  constructor
  · rintro ⟨e, he, hk⟩
    cases e with
    | broker b => exact ⟨b, he⟩
    | _ => cases hk
  · rintro ⟨b, hb⟩
    exact ⟨_, hb, rfl⟩

/-! ## Lists of entities -/

theorem mem_values_iff {e : Entity} :
    e ∈ r.entities.values ↔ ∃ k, r.entities.get? k = some e := by
  simp only [SortedMap.values, List.mem_map, Prod.exists, SortedMap.get?_eq_some_iff]
  constructor
  · rintro ⟨k, d, h, rfl⟩
    exact ⟨k, h⟩
  · rintro ⟨k, h⟩
    exact ⟨k, e, h, rfl⟩

theorem mem_fogNodes_iff {n : FogNode} : n ∈ r.fogNodes ↔ ∃ k, r.fogNode k = .ok n := by
  simp [fogNodes, mem_values_iff, Entity.fogNode?_eq_some_iff, fogNode_eq_ok_iff]

theorem mem_puddleHeads_iff {h : PuddleHead} :
    h ∈ r.puddleHeads ↔ ∃ k, r.puddleHead k = .ok h := by
  simp [puddleHeads, mem_values_iff, Entity.puddleHead?_eq_some_iff, puddleHead_eq_ok_iff]

theorem mem_links_iff {l : Link} : l ∈ r.links ↔ ∃ k, r.link k = .ok l := by
  simp [links, mem_values_iff, Entity.link?_eq_some_iff, link_eq_ok_iff]

/-! ## Numbers -/

/-- Each entity carries the number it is stored under. -/
def Numbered (r : Registry) : Prop := ∀ k e, r.entities.get? k = some e → e.id = k

namespace Numbered

variable {e : Entity} {n : FogNode} {h : PuddleHead}

theorem empty : Registry.empty.Numbered := fun _ _ => nofun

theorem put (hr : r.Numbered) (he : e.id = k) : (r.put k e).Numbered := by
  intro j d hd
  unfold Registry.put at hd
  rw [SortedMap.get?_insert] at hd
  by_cases hj : j = k
  · rw [if_pos hj] at hd
    rw [← Option.some.inj hd, he, hj]
  · rw [if_neg hj] at hd
    exact hr j d hd

theorem id_fogNode (hr : r.Numbered) (hn : r.fogNode k = .ok n) : n.id = k :=
  hr k _ (fogNode_eq_ok_iff.1 hn)

theorem id_puddleHead (hr : r.Numbered) (hh : r.puddleHead k = .ok h) : h.id = k :=
  hr k _ (puddleHead_eq_ok_iff.1 hh)

theorem puddleHead_id (hr : r.Numbered) (hh : h ∈ r.puddleHeads) : r.puddleHead h.id = .ok h := by
  obtain ⟨k, hk⟩ := mem_puddleHeads_iff.1 hh
  rwa [hr.id_puddleHead hk]

end Numbered

end Registry

end FogNet
