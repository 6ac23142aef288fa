import FogNet.Proofs.Membership.Reaction
import FogNet.World.Transfer

/-!
# Interventions

Between two events a node may be given another direction, a module may be placed on a node and bytes
may be queued along a route. None of this has to do with membership: it is a slight touch of the
registry (`Intervention.slight`), which leaves lists, standings, ties and changes alone, and no
module is placed on a stranger (`Intervention.pruned`).
-/

namespace FogNet

open Registry

/-- A touch that membership does not depend on. -/
structure Touch.Slight (t : Touch) : Prop where
  /-- It changes no more than reactions do. -/
  faithful : t.Faithful
  /-- Nodes stay where they are. -/
  node : ∀ k n, (t.node k n).standing = n.standing ∧ (t.node k n).buddies = n.buddies ∧
    (t.node k n).pending = n.pending
  /-- Heads keep their lists and copies. -/
  head : ∀ k h, (t.head k h).members = h.members ∧
    (t.head k h).memberCharacteristics = h.memberCharacteristics ∧
    (t.head k h).childPuddles = h.childPuddles
  /-- The broker stays as it is. -/
  broker : ∀ k b, t.broker k b = b
  /-- Nodes do not move by it. -/
  motion : ∀ k n, (t.node k n).motion.mobile = n.motion.mobile ∧
    (t.node k n).motion.lastUpdate = n.motion.lastUpdate
  /-- Nodes stay in their rectangles. -/
  bounds : ∀ k n, (t.node k n).motion.bounds = n.motion.bounds
  /-- Latencies stay as they are. -/
  latency : ∀ k l, (t.link k l).latency = l.latency

namespace Touch.Slight

variable {s t : Touch} {id : EntityId}

theorem nothing : Slight .nothing :=
  ⟨.nothing, fun _ _ => ⟨rfl, rfl, rfl⟩, fun _ _ => ⟨rfl, rfl, rfl⟩, fun _ _ => rfl,
    fun _ _ => ⟨rfl, rfl⟩, fun _ _ => rfl, fun _ _ => rfl⟩

theorem andThen (hs : s.Slight) (ht : t.Slight) : (s.andThen t).Slight := by
  refine ⟨hs.faithful.andThen ht.faithful, fun k n => ?_, fun k h => ?_,
    fun k b => (ht.broker k _).trans (hs.broker k b), fun k n => ?_,
    fun k n => (ht.bounds k _).trans (hs.bounds k n),
    fun k l => (ht.latency k _).trans (hs.latency k l)⟩
  · obtain ⟨h1, h2, h3⟩ := hs.node k n
    obtain ⟨g1, g2, g3⟩ := ht.node k (s.node k n)
    exact ⟨g1.trans h1, g2.trans h2, g3.trans h3⟩
  · obtain ⟨h1, h2, h3⟩ := hs.head k h
    obtain ⟨g1, g2, g3⟩ := ht.head k (s.head k h)
    exact ⟨g1.trans h1, g2.trans h2, g3.trans h3⟩
  · obtain ⟨h1, h2⟩ := hs.motion k n
    obtain ⟨g1, g2⟩ := ht.motion k (s.node k n)
    exact ⟨g1.trans h1, g2.trans h2⟩

/-- Changing in which way a node moves is slight. -/
theorem onMotion (id : EntityId) {f : Motion Float → Motion Float}
    (hf : ∀ m, (f m).mobile = m.mobile ∧ (f m).lastUpdate = m.lastUpdate)
    (hbounds : ∀ m, (f m).bounds = m.bounds) :
    (Touch.onNode id fun n => { n with motion := f n.motion }).Slight := by
  refine ⟨.onNode fun _ => rfl, fun k n => ?_, fun _ _ => ⟨rfl, rfl, rfl⟩, fun _ _ => rfl,
    fun k n => ?_, fun k n => ?_, fun _ _ => rfl⟩
  · unfold Touch.onNode
    simp only
    split_ifs <;> exact ⟨rfl, rfl, rfl⟩
  · unfold Touch.onNode
    simp only
    split_ifs
    · exact hf n.motion
    · exact ⟨rfl, rfl⟩
  · unfold Touch.onNode
    simp only
    split_ifs
    · exact hbounds n.motion
    · rfl

/-- Placing a module is slight. -/
theorem onServices (id node : EntityId) (module : String) :
    (Touch.onHead id (·.placeService node module)).Slight := by
  refine ⟨.onHead fun _ => rfl, fun _ _ => ⟨rfl, rfl, rfl⟩, fun k h => ?_, fun _ _ => rfl,
    fun _ _ => ⟨rfl, rfl⟩, fun _ _ => rfl, fun _ _ => rfl⟩
  unfold Touch.onHead
  simp only
  split_ifs <;> exact ⟨rfl, rfl, rfl⟩

/-- Changing what waits at a link is slight. -/
theorem onLink {f : Link → Link} (hf : ∀ l : Link, l.SameChannel (f l))
    (hlatency : ∀ l, (f l).latency = l.latency) : (Touch.onLink id f).Slight := by
  refine ⟨.onLink hf, fun _ _ => ⟨rfl, rfl, rfl⟩, fun _ _ => ⟨rfl, rfl, rfl⟩, fun _ _ => rfl,
    fun _ _ => ⟨rfl, rfl⟩, fun _ _ => rfl, fun k l => ?_⟩
  unfold Touch.onLink
  simp only
  split_ifs
  · exact hlatency l
  · rfl

theorem orderly {r : Registry} (ht : t.Slight) (hr : r.Orderly) : (r.touch t).Orderly :=
  hr.neutral ht.faithful (fun k n => ⟨(ht.node k n).1, (ht.node k n).2.1⟩) ht.head

theorem lists_iff {r : Registry} (ht : t.Slight) {a k : EntityId} :
    (r.touch t).Lists a k ↔ r.Lists a k := by
  rw [lists_touch_iff]
  simp only [(ht.head _ _).1]
  rfl

theorem owns_iff {r : Registry} (ht : t.Slight) {a k : EntityId} :
    (r.touch t).Owns a k ↔ r.Owns a k := by
  rw [owns_touch_iff]
  simp only [(ht.node _ _).1]
  rfl

end Touch.Slight

namespace World

/-- What may be done to a network between two events, whether it succeeds or fails. -/
inductive Intervention (w : World) : World → Prop where
  /-- A node is given another velocity. -/
  | setDirection (node : EntityId) (velocity : Vec Float) :
      Intervention w (stateOf (setDirection node velocity w))
  /-- A module is placed on a node. -/
  | placeService (node : EntityId) (module : String) :
      Intervention w (stateOf (placeService node module w))
  /-- Bytes are queued along a route. -/
  | queueTransfer (source target : EntityId) (bytes : Nat) :
      Intervention w (stateOf (queueTransfer source target bytes w))

/-- A step touches a registry slightly and keeps nothing for strangers, whether it succeeds or
fails. -/
def SlightChange {α : Type} (step : Change α) (r : Registry) : Prop :=
  ∃ t, Touch.Slight t ∧ (r.Enrolled → r.Pruned → (r.touch t).Pruned) ∧ stateOf (step r) = r.touch t

variable {w w' : World} {r : Registry} {α : Type}

theorem stateOf_change (step : Change α) (w : World) :
    stateOf (w.change step) = { w with registry := stateOf (step w.registry) } := by
  unfold change
  cases step w.registry <;> rfl

theorem slight_of_unchanged (step : Change α) (h : stateOf (step r) = r) : SlightChange step r :=
  ⟨.nothing, .nothing, fun _ hp => hp.headless rfl, h.trans (touch_nothing r).symm⟩

theorem slight_setDirection (node : EntityId) (velocity : Vec Float) :
    SlightChange
      (Change.updateNode node fun n => { n with motion := n.motion.setDirection velocity }) r := by
  cases hn : r.fogNode node with
  | error fault =>
    refine slight_of_unchanged _ ?_
    rw [Change.updateNode_of_error _ hn]
    rfl
  | ok n =>
    refine ⟨_, .onMotion node (f := (·.setDirection velocity)) (fun _ => ⟨rfl, rfl⟩)
      fun _ => rfl, fun _ hp => hp.headless rfl, ?_⟩
    rw [Change.updateNode_of_ok _ hn]
    rfl

theorem slight_placeService (node : EntityId) (module : String) :
    SlightChange (do
      let n ← Change.fogNode node
      match n.owner? with
      | none => Change.fail (.topology (.headless node))
      | some head => Change.updateHead head (·.placeService node module)) r := by
  cases hn : r.fogNode node with
  | error fault =>
    refine slight_of_unchanged _ ?_
    rw [Change.bind_of_error (Change.fogNode_of_error hn)]
    rfl
  | ok n =>
    unfold SlightChange
    rw [Change.bind_of_ok (Change.fogNode_of_ok hn)]
    cases ho : n.owner? with
    | none => exact slight_of_unchanged (Change.fail _) rfl
    | some head =>
      cases hh : r.puddleHead head with
      | error fault =>
        refine slight_of_unchanged (Change.updateHead head _) ?_
        rw [Change.updateHead_of_error _ hh]
        rfl
      | ok h =>
        refine ⟨_, .onServices head node module, fun he hp => ?_, ?_⟩
        · exact hp.placing (he.owned ((owns_iff_owner? hn).2 ho))
        · show stateOf (Change.updateHead head _ r) = _
          rw [Change.updateHead_of_ok _ hh]
          rfl

theorem queueOnHops_of_error {link sender : EntityId} {fault : Fault} (bytes : Nat)
    (rest : List (EntityId × EntityId)) (total : Float) (hl : r.link link = .error fault) :
    queueOnHops bytes ((link, sender) :: rest) total r = .error fault r := by
  show (Change.link link >>= _) r = _
  rw [Change.bind_of_error (Change.link_of_error hl)]

/-- Queueing bytes on one hop is a touch of its link, and the rest goes on from there. -/
theorem queueOnHops_of_ok {link sender : EntityId} {l : Link} (bytes : Nat)
    (rest : List (EntityId × EntityId)) (total : Float) (hl : r.link link = .ok l) :
    queueOnHops bytes ((link, sender) :: rest) total r =
      queueOnHops bytes rest (total + l.estimatedDelay sender bytes)
        (r.touch (.onLink link fun l => (l.enqueue sender bytes).2)) := by
  have hput : Change.put link (.link (l.enqueue sender bytes).2) r =
      .ok () (r.touch (.onLink link fun l => (l.enqueue sender bytes).2)) := by
    rw [← Change.updateLink_of_ok _ hl]
    unfold Change.updateLink
    rw [Change.bind_of_ok (Change.link_of_ok hl)]
  show (Change.link link >>= fun l => Change.put link (.link (l.enqueue sender bytes).2) >>=
    fun _ => queueOnHops bytes rest (total + l.estimatedDelay sender bytes)) r = _
  rw [Change.bind_of_ok (Change.link_of_ok hl), Change.bind_of_ok hput]

/-- Queueing bytes hop by hop touches links only, however far it gets. -/
theorem slight_queueOnHops (bytes : Nat) (hops : List (EntityId × EntityId)) (total : Float) :
    SlightChange (queueOnHops bytes hops total) r := by
  induction hops generalizing r total with
  | nil => exact slight_of_unchanged _ rfl
  | cons hop rest ih =>
    obtain ⟨link, sender⟩ := hop
    cases hl : r.link link with
    | error fault =>
      refine slight_of_unchanged _ ?_
      rw [queueOnHops_of_error bytes rest total hl]
      rfl
    | ok l =>
      have hlink : (Touch.onLink link fun l => (l.enqueue sender bytes).2).Slight :=
        .onLink (fun l => l.sameChannel_enqueue sender bytes) fun l =>
          l.latency_enqueue sender bytes
      obtain ⟨t, ht, hpruned, hrest⟩ := ih (r := r.touch _) (total + l.estimatedDelay sender bytes)
      refine ⟨_, hlink.andThen ht, fun he hp => ?_, ?_⟩
      · rw [← touch_touch]
        exact hpruned (he.keep hlink.faithful hlink.head owns_touch_iff.1) (hp.headless rfl)
      · rw [queueOnHops_of_ok bytes rest total hl, hrest, touch_touch]

/-- An intervention is a slight touch of the registry and keeps nothing for strangers. -/
theorem Intervention.touch (h : w.Intervention w') :
    ∃ t, Touch.Slight t ∧ (w.registry.Enrolled → w.registry.Pruned → (w.registry.touch t).Pruned) ∧
      w' = { w with registry := w.registry.touch t } := by
  have hchange : ∀ {α : Type} {step : Change α}, SlightChange step w.registry →
      ∃ t, Touch.Slight t ∧
        (w.registry.Enrolled → w.registry.Pruned → (w.registry.touch t).Pruned) ∧
        stateOf (w.change step) = { w with registry := w.registry.touch t } := by
    rintro α step ⟨t, ht, hpruned, hstep⟩
    exact ⟨t, ht, hpruned, by rw [stateOf_change, hstep]⟩
  cases h with
  | setDirection node velocity => exact hchange (slight_setDirection node velocity)
  | placeService node module => exact hchange (slight_placeService node module)
  | queueTransfer source target bytes =>
    unfold World.queueTransfer
    cases w.routeHops source target with
    | none => exact ⟨.nothing, .nothing, fun _ hp => hp.headless rfl, by rw [touch_nothing]; rfl⟩
    | some hops =>
      refine hchange ?_
      obtain ⟨t, ht, hpruned, hstep⟩ := slight_queueOnHops (r := w.registry) bytes hops 0
      refine ⟨t, ht, hpruned, ?_⟩
      show stateOf (EStateM.map some (queueOnHops bytes hops 0) w.registry) = _
      unfold EStateM.map
      rw [← hstep]
      cases queueOnHops bytes hops 0 w.registry <;> rfl

/-- An intervention does not touch membership. -/
theorem Intervention.slight (h : w.Intervention w') :
    ∃ t, Touch.Slight t ∧ w' = { w with registry := w.registry.touch t } := by
  obtain ⟨t, ht, -, hw⟩ := h.touch
  exact ⟨t, ht, hw⟩

/-- No module is placed on a stranger. -/
theorem Intervention.pruned (h : w.Intervention w') (he : w.registry.Enrolled)
    (hp : w.registry.Pruned) : w'.registry.Pruned := by
  obtain ⟨t, -, hpruned, rfl⟩ := h.touch
  exact hpruned he hp

end World

end FogNet
