import FogNet.Proofs.Kernel.Loop
import FogNet.Proofs.Registry.Touch

/-!
# Running changes

What the primitive steps on a registry do when the entities they look up are there: reading changes
nothing, and an update is the touch of one record.
-/

namespace FogNet

namespace Change

open Registry

variable {α β : Type} {r r' : Registry} {id : EntityId} {fault : Fault}

theorem bind_of_ok {x : Change α} {f : α → Change β} {a : α} (h : x r = .ok a r') :
    (x >>= f) r = f a r' := by
  show EStateM.bind x f r = f a r'
  unfold EStateM.bind
  rw [h]

theorem bind_of_error {x : Change α} {f : α → Change β} (h : x r = .error fault r') :
    (x >>= f) r = .error fault r' := by
  show EStateM.bind x f r = .error fault r'
  unfold EStateM.bind
  rw [h]

theorem bind_eq_ok_iff {x : Change α} {f : α → Change β} {b : β} :
    (x >>= f) r = .ok b r' ↔ ∃ a q, x r = .ok a q ∧ f a q = .ok b r' := by
  cases hx : x r with
  | ok a q =>
    rw [bind_of_ok hx]
    constructor
    · exact fun h => ⟨a, q, rfl, h⟩
    · rintro ⟨_, _, he, h⟩
      cases he
      exact h
  | error fault q => simp [bind_of_error hx]

theorem pure_run (a : α) (r : Registry) : (pure a : Change α) r = .ok a r := rfl

theorem discard_of_ok {x : Change α} {a : α} (h : x r = .ok a r') :
    (discard x) r = .ok () r' := by
  show EStateM.map (Function.const α ()) x r = .ok () r'
  unfold EStateM.map
  rw [h]

theorem discard_of_error {x : Change α} (h : x r = .error fault r') :
    (discard x) r = .error fault r' := by
  show EStateM.map (Function.const α ()) x r = .error fault r'
  unfold EStateM.map
  rw [h]

theorem read_of_ok {look : Registry → Except Fault α} {a : α} (h : look r = .ok a) :
    read look r = .ok a r := by
  unfold read
  rw [h]

theorem read_of_error {look : Registry → Except Fault α} (h : look r = .error fault) :
    read look r = .error fault r := by
  unfold read
  rw [h]

theorem fogNode_of_ok {n : FogNode} (h : r.fogNode id = .ok n) : fogNode id r = .ok n r :=
  read_of_ok h

theorem fogNode_of_error (h : r.fogNode id = .error fault) : fogNode id r = .error fault r :=
  read_of_error h

theorem puddleHead_of_ok {g : PuddleHead} (h : r.puddleHead id = .ok g) :
    puddleHead id r = .ok g r :=
  read_of_ok h

theorem puddleHead_of_error (h : r.puddleHead id = .error fault) :
    puddleHead id r = .error fault r :=
  read_of_error h

theorem link_of_error (h : r.link id = .error fault) : link id r = .error fault r :=
  read_of_error h

theorem link_of_ok {l : Link} (h : r.link id = .ok l) : link id r = .ok l r := read_of_ok h

/-! ## Updates -/

theorem updateNode_of_ok {n : FogNode} (f : FogNode → FogNode) (h : r.fogNode id = .ok n) :
    updateNode id f r = .ok () (r.touch (.onNode id f)) := by
  unfold updateNode
  rw [bind_of_ok (fogNode_of_ok h)]
  have hput := put_eq_touch (t := .onNode id f) (fogNode_eq_ok_iff.1 h) fun j d hj => by
    cases d <;> simp [Touch.entity, Touch.onNode, Touch.nothing, hj]
  rw [← hput]
  simp [put, Touch.entity, Touch.onNode]

theorem updateNode_of_error (f : FogNode → FogNode) (h : r.fogNode id = .error fault) :
    updateNode id f r = .error fault r :=
  bind_of_error (fogNode_of_error h)

theorem updateHead_of_ok {g : PuddleHead} (f : PuddleHead → PuddleHead)
    (h : r.puddleHead id = .ok g) : updateHead id f r = .ok () (r.touch (.onHead id f)) := by
  unfold updateHead
  rw [bind_of_ok (puddleHead_of_ok h)]
  have hput := put_eq_touch (t := .onHead id f) (puddleHead_eq_ok_iff.1 h) fun j d hj => by
    cases d <;> simp [Touch.entity, Touch.onHead, Touch.nothing, hj]
  rw [← hput]
  simp [put, Touch.entity, Touch.onHead]

theorem updateHead_of_error (f : PuddleHead → PuddleHead) (h : r.puddleHead id = .error fault) :
    updateHead id f r = .error fault r :=
  bind_of_error (puddleHead_of_error h)

theorem updateLink_of_ok {l : Link} (f : Link → Link) (h : r.link id = .ok l) :
    updateLink id f r = .ok () (r.touch (.onLink id f)) := by
  unfold updateLink
  rw [bind_of_ok (link_of_ok h)]
  have hput := put_eq_touch (t := .onLink id f) (link_eq_ok_iff.1 h) fun j d hj => by
    cases d <;> simp [Touch.entity, Touch.onLink, Touch.nothing, hj]
  rw [← hput]
  simp [put, Touch.entity, Touch.onLink]

theorem updateBroker_of_ok {b : Broker} (f : Broker → Broker) (h : r.broker id = .ok b) :
    updateBroker id f r = .ok () (r.touch (.onBroker id f)) := by
  unfold updateBroker
  rw [bind_of_ok (read_of_ok h)]
  have hput := put_eq_touch (t := .onBroker id f) (broker_eq_ok_iff.1 h) fun j d hj => by
    cases d <;> simp [Touch.entity, Touch.onBroker, Touch.nothing, hj]
  rw [← hput]
  simp [put, Touch.entity, Touch.onBroker]

/-! ## Loops -/

/-- A loop succeeds if its first round and the rest of it do. -/
theorem forM_cons_eq_ok_iff {γ : Type} {f : γ → Change Unit} {a : γ} {l : List γ} {u : Unit} :
    (a :: l).forM f r = .ok u r' ↔ ∃ v q, f a r = .ok v q ∧ l.forM f q = .ok u r' :=
  bind_eq_ok_iff

/-- A loop whose body either does nothing or touches the registry, as the current element demands,
amounts to one touch for the elements that demand it. `P` is what the body relies on. -/
theorem forM_touch (ids : List EntityId) (body : EntityId → Change Unit)
    (demands : EntityId → Bool) (P : Registry → Prop) {t : List EntityId → Touch}
    (hnil : t [] = .nothing) (hcons : ∀ a l, (t [a]).andThen (t l) = t (a :: l))
    (hbody : ∀ r, P r → ∀ a ∈ ids,
      body a r = .ok () (if demands a then r.touch (t [a]) else r))
    (hkeep : ∀ r, P r → ∀ a ∈ ids, P (r.touch (t [a]))) (hr : P r) :
    ids.forM body r = .ok () (r.touch (t (ids.filter demands))) := by
  induction ids generalizing r with
  | nil =>
    show EStateM.Result.ok () r = _
    rw [List.filter_nil, hnil, touch_nothing]
  | cons a rest ih =>
    have ih := fun {r} => @ih r (fun r hr a ha => hbody r hr a (List.mem_cons_of_mem _ ha))
      (fun r hr a ha => hkeep r hr a (List.mem_cons_of_mem _ ha))
    have ha := hbody r hr a List.mem_cons_self
    show (body a >>= fun _ => rest.forM body) r = _
    rw [bind_of_ok ha]
    by_cases hd : demands a
    · rw [if_pos hd, ih (hkeep r hr a List.mem_cons_self), List.filter_cons_of_pos hd,
        touch_touch, hcons]
    · rw [if_neg hd, ih hr, List.filter_cons_of_neg hd]

end Change

end FogNet
