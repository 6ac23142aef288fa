import FogNet.Proofs.Run.Quiet

/-!
# What a run guarantees

While nobody posts messages from outside, the records pass all checks, every change of membership
has exactly one message on its way, and a step fails only if an answer would be due past the last
instant. Whatever is posted, the buddy sets say who shares a puddle. Each result comes with the
session in which the walker is handed over.
-/

namespace FogNet

open Registry

variable {g : Regime} {s : Session World Payload} {k : EntityId} {n : FogNode}
  {due : Option Errand}

/-! ## Consistency -/

namespace Reachable

/-- The records agree in every session of a run in which nobody posts messages from outside, also
after a step that has failed. -/
theorem checkAll_of_undisturbed (hs : Reachable .undisturbed s) :
    s.state.registry.checkAll = .ok () :=
  (hs.quiet fun _ _ _ h => h).checkAll hs.orderly

/-- Two heads list the walker, and the records agree. -/
theorem checkAll_handover : Crossing.handover.state.registry.Lists Crossing.west Crossing.walker ∧
    Crossing.handover.state.registry.Lists Crossing.east Crossing.walker ∧
    Crossing.handover.state.registry.checkAll = .ok () :=
  ⟨listed_iff.1 (by decide +kernel), listed_iff.1 (by decide +kernel),
    checkAll_of_undisturbed Crossing.reachable_handover⟩

end Reachable

/-! ## Messages on their way -/

/-- The change of a node says which of its errands are on their way. -/
structure FogNode.Accounts (n : FogNode) (id : EntityId) (errands : List Errand) : Prop where
  /-- There is at most one. -/
  single : errands.length ≤ 1
  /-- There is none if no change has been started. -/
  resting : n.pending = none ↔ errands = []
  /-- A node that joins is in no puddle yet. -/
  joining : ∀ target, n.pending = some (.joining target) ↔
    (target, .joinPuddle id) ∈ errands ∧ n.standing = .unassigned
  /-- A node that relocates is taken over by one head, then struck off by the other. -/
  relocating : ∀ source target, n.pending = some (.relocating source target) ↔
    (target, .relocate id) ∈ errands ∧ n.standing = .owned source ∨
      (source, .leavePuddle id) ∈ errands ∧ n.standing = .owned target
  /-- A node that departs leaves the network, then its last owner strikes it off. -/
  departing : ∀ source, n.pending = some (.departing source) ↔
    (id, .nodeLeave) ∈ errands ∧ n.owner? = source ∨
      ∃ head, source = some head ∧ (head, .leavePuddle id) ∈ errands ∧ n.standing = .departed

theorem FogNode.Phase.accounts (h : n.Phase k due) : n.Accounts k due.toList := by
  cases h with
  | rests hp hdue =>
    subst hdue
    constructor <;> simp [hp]
  | joins hs hp hdue =>
    subst hdue
    constructor <;> simp [hp, hs, eq_comm]
  | relocates hne hs hp hdue =>
    subst hdue
    constructor <;> simp [hp, hs, eq_comm, and_comm]
  | isHandedOver hne hs hp hdue =>
    subst hdue
    constructor <;> simp [hp, hs, eq_comm]
  | isDismissed hs hp hdue =>
    subst hdue
    constructor <;> simp [hp]
  | isGone hs hp hdue =>
    subst hdue
    constructor <;> simp [hp, hs, eq_comm]

namespace Reachable

/-- While no step fails and nobody posts messages from outside, the change of a node says which of
its errands are on their way, and the broker starts no other change of the node before the errand
has arrived. -/
theorem accounts_of_flawless (hs : Reachable .flawless s)
    (hn : s.state.registry.fogNode k = .ok n) :
    n.Accounts k (s.errands k) ∧ (s.errands k ≠ [] → s.state.evaluate k = .ok .ignore) := by
  obtain ⟨due, ⟨m, hm, hphase, -⟩, herrands⟩ :=
    (hs.quiet fun _ _ _ h => h).expects (kind_eq_fogNode_iff.2 ⟨n, hn⟩)
  obtain rfl := fogNode_inj hn hm
  have herrands : s.errands k = due.toList := herrands.resolve_right fun ⟨⟨_, h⟩, _⟩ => h
  have haccounts : n.Accounts k (s.errands k) := herrands ▸ hphase.accounts
  refine ⟨haccounts, fun he => ?_⟩
  obtain ⟨b, hb⟩ := kind_eq_broker_iff.1 hs.broker
  unfold World.evaluate
  rw [hb]
  exact evaluate_of_pending hn fun hp => he (haccounts.resting.1 hp)

/-- The walker waits for the west to strike it off, and for nothing else. -/
theorem accounts_walker : ∃ n, Crossing.handover.state.registry.fogNode Crossing.walker = .ok n ∧
    n.pending = some (.relocating Crossing.west Crossing.east) ∧
    n.standing = .owned Crossing.east ∧
    Crossing.handover.errands Crossing.walker =
      [(Crossing.west, .leavePuddle Crossing.walker)] := by
  have hwalker : (Crossing.handover.state.registry.fogNode Crossing.walker).toOption.map
      (fun n => (n.pending, n.standing)) =
        some (some (.relocating Crossing.west Crossing.east), .owned Crossing.east) := by
    decide +kernel
  cases hn : Crossing.handover.state.registry.fogNode Crossing.walker with
  | error fault =>
    rw [hn] at hwalker
    cases hwalker
  | ok n =>
    rw [hn] at hwalker
    obtain ⟨hp, hs⟩ := Prod.mk.inj (Option.some.inj hwalker)
    have haccounts := (accounts_of_flawless Crossing.reachable_handover hn).1
    refine ⟨n, rfl, hp, hs, ?_⟩
    rcases (haccounts.relocating _ _).1 hp with ⟨-, hwest⟩ | ⟨hleave, -⟩
    · rw [hs] at hwest
      cases hwest
    · obtain ⟨e, he⟩ := List.length_eq_one_iff.1
        (Nat.le_antisymm haccounts.single (List.length_pos_of_mem hleave))
      rw [he] at hleave ⊢
      rw [List.mem_singleton.1 hleave]

end Reachable

/-! ## Buddies -/

namespace Reachable

/-- Whatever is posted and whatever fails, the buddy sets say who shares a puddle, and exactly so
while every node is listed by its owner alone. -/
theorem buddies_of_reachable (hs : Reachable .unrestricted s) : s.state.registry.Befriended ∧
    ((∀ a k, s.state.registry.Lists a k → s.state.registry.Owns a k) →
      ∀ a b, s.state.registry.Lives a → s.state.registry.Lives b → a ≠ b →
        (s.state.registry.Befriends a b ↔
          ∃ h, s.state.registry.Owns h a ∧ s.state.registry.Owns h b)) := by
  have hb := hs.orderly.befriended
  refine ⟨hb, fun howned a b _ _ hne => ⟨fun hab => ?_, fun ⟨h, ha, hb'⟩ => hb.together ha hb' hne⟩⟩
  obtain ⟨h, ha, hb'⟩ := hb.met hab
  exact ⟨h, howned h a ha, howned h b hb'⟩

/-- The walker and its neighbour stay buddies while the west still lists both. -/
theorem buddies_handover :
    Crossing.handover.state.registry.Befriends Crossing.neighbour Crossing.walker ∧
      ∃ h, Crossing.handover.state.registry.Lists h Crossing.walker ∧
        Crossing.handover.state.registry.Lists h Crossing.neighbour := by
  have hmet : Crossing.handover.state.registry.Befriends Crossing.walker Crossing.neighbour :=
    answers_node_iff.1 (by decide +kernel)
  have hb := (buddies_of_reachable Crossing.reachable_handover).1
  exact ⟨hb.symmetric hmet, hb.met hmet⟩

end Reachable

/-! ## Failures -/

/-- The only fault that a result reports is that an answer would be due past the last instant. -/
def OnlyPastTheEnd {α : Type} (result : EStateM.Result Fault (Session World Payload) α) : Prop :=
  ∀ ⦃fault q⦄, result = .error fault q → ∃ now delay, fault = .schedule (.pastTheEnd now delay)

/-- Whom a session relies on is there: steps do not fail for want of anybody, no message is dropped
by its receiver, and the broker does not pass over a node for want of its owner. -/
structure Session.Dependable (s : Session World Payload) : Prop where
  /-- A step fails only past the last instant. -/
  step : OnlyPastTheEnd (s.step World.handle)
  /-- So does a run over some events. -/
  runFor : ∀ max, OnlyPastTheEnd (s.runFor World.handle max)
  /-- So does a run over all events. -/
  run : ∀ {budget result}, s.run World.handle budget = some result → OnlyPastTheEnd result
  /-- So does a run up to an instant. -/
  runUntil : ∀ {horizon budget result}, s.runUntil World.handle horizon budget = some result →
    OnlyPastTheEnd result
  /-- Messages go to entities that deal with them. -/
  addressed : ∀ {sender receiver msg}, .deliver sender receiver msg ∈ s.payloads →
    Addressed s.state.registry receiver msg
  /-- Their receivers react without failing, and answer entities that deal with the answers. -/
  reacts : ∀ {sender receiver msg} (now : Time), .deliver sender receiver msg ∈ s.payloads →
    ∃ out r, Change.react s.state.settings s.state.broker now receiver msg s.state.registry =
      .ok out r ∧ ∀ o ∈ out, Addressed r o.receiver o.message
  /-- The owner of a node is a head. -/
  owned : ∀ {k n head}, s.state.registry.fogNode k = .ok n → n.owner? = some head →
    s.state.registry.kind head = .ok .puddleHead
  /-- The ends of a link are nodes or heads. -/
  ended : ∀ {k l}, s.state.registry.link k = .ok l →
    s.state.registry.Sited l.first ∧ s.state.registry.Sited l.second
  /-- The broker passes over a node only if it is in the middle of a change or gone. -/
  ignored : ∀ {k}, s.state.evaluate k = .ok .ignore → ∃ n, s.state.registry.fogNode k = .ok n ∧
    (n.pending ≠ none ∨ n.standing = .departed)

namespace Reachable

theorem onlyPastTheEnd_step (hs : Reachable .undisturbed s) :
    OnlyPastTheEnd (s.step World.handle) := by
  have hquiet : s.Quiet _ := hs.quiet fun _ _ _ h => h
  intro fault q hstep
  obtain ⟨-, -, hfault⟩ := Session.advance_of_error hs.orderly hstep
  cases hfault with
  | unresolved hqueue hres =>
    exact absurd (hquiet.addressed (by rw [hqueue]; exact List.mem_cons_self)).resolved hres
  | pastTheEnd => exact ⟨_, _, rfl⟩
  | violation hcause =>
    have hq : Reachable .undisturbed q := hs.failed hstep trivial
    have hcheck := Session.Quiet.checkAll (hq.quiet fun _ _ _ h => h) hq.orderly
    unfold World.inspect at hcause
    rw [hcheck, ite_self] at hcause
    cases hcause

theorem onlyPastTheEnd_of_through {result : EStateM.Result Fault (Session World Payload) Unit}
    (h : Session.Through .undisturbed result) : OnlyPastTheEnd result := by
  rintro fault q rfl
  obtain ⟨p, hp, hstep⟩ := h
  exact hp.onlyPastTheEnd_step hstep

theorem reacts_of_addressed {id : EntityId} {msg : Message} (hs : Reachable g s) (now : Time)
    (h : Addressed s.state.registry id msg) :
    ∃ out r, Change.react s.state.settings s.state.broker now id msg s.state.registry =
      .ok out r ∧ ∀ o ∈ out, Addressed r o.receiver o.message := by
  obtain ⟨out, t, hreact, hreaction⟩ := Change.react_of_resolved hs.orderly h.resolved
  exact ⟨out, _, hreact, fun o ho =>
    addressed_touch_iff.2 (hreaction.addressed hs.orderly hs.broker o ho)⟩

theorem ignored_of_evaluate (hs : Reachable g s) (h : s.state.evaluate k = .ok .ignore) :
    ∃ n, s.state.registry.fogNode k = .ok n ∧ (n.pending ≠ none ∨ n.standing = .departed) := by
  obtain ⟨b, hb⟩ := kind_eq_broker_iff.1 hs.broker
  unfold World.evaluate at h
  rw [hb] at h
  have h : s.state.registry.evaluate b k = .ok .ignore := h
  cases hn : s.state.registry.fogNode k with
  | error fault =>
    rw [evaluate_of_unknown hn] at h
    cases h
  | ok n =>
    obtain ⟨p, hp, hdecision⟩ := evaluate_spec hs.orderly hb hn
    rw [h] at hp
    obtain rfl := Except.ok.inj hp
    cases hdecision with
    | ignore hignore => exact ⟨n, rfl, hignore⟩

/-- In a run in which nobody posts messages from outside, a step fails only if an answer would be
due past the last instant. -/
theorem dependable_of_undisturbed (hs : Reachable .undisturbed s) : s.Dependable where
  step := hs.onlyPastTheEnd_step
  runFor max := onlyPastTheEnd_of_through (Session.through_runFor hs max)
  run h := onlyPastTheEnd_of_through (Session.through_run hs h)
  runUntil h := onlyPastTheEnd_of_through (Session.through_runUntil hs h)
  addressed h := (hs.quiet fun _ _ _ h => h).addressed h
  reacts now h := hs.reacts_of_addressed now ((hs.quiet fun _ _ _ h => h).addressed h)
  owned hn ho :=
    kind_eq_puddleHead_iff.2 (hs.orderly.enrolled.head_of_owns ((owns_iff_owner? hn).2 ho))
  ended hl := hs.orderly.wired.ended hl
  ignored h := hs.ignored_of_evaluate h

/-- The message that lets the walker go is on its way to a head, and its delivery does not fail for
want of anybody. -/
theorem dependable_handover : OnlyPastTheEnd (Crossing.handover.step World.handle) ∧
    Addressed Crossing.handover.state.registry Crossing.west (.leavePuddle Crossing.walker) := by
  have hdependable := dependable_of_undisturbed Crossing.reachable_handover
  have hqueued : Payload.deliver Crossing.east Crossing.west (.leavePuddle Crossing.walker) ∈
      Crossing.handover.payloads := by decide +kernel
  exact ⟨hdependable.step, hdependable.addressed hqueued⟩

end Reachable

end FogNet
