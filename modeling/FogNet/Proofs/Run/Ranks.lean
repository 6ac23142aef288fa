import FogNet.Proofs.Run.Active
import FogNet.Proofs.Topology.Ranks

/-!
# Levels and the broker's indices during a run

While no message comes from outside, only the broker sends nodes to heads, and it sends a node to a
head of the node's level (`Reaction.peers_of_answer`). So heads list nodes of their own level only,
and the messages on their way say nothing else (`Reachable.levelled`). In such a run a node leaves
because the broker has told it to, and the broker takes it off its index when it decides that; the
index therefore has the nodes that remain in the network (`Reaction.remains_iff`,
`Reachable.counts_remaining`). `Builder.Registers.inRank` puts together what holds in a run in which
all steps succeed.
-/

namespace FogNet

open Registry

variable {c : Settings} {broker id k a : EntityId} {now : Time} {r : Registry} {msg : Message}
  {out : List Outgoing} {t : Touch} {b : Broker} {o : Outgoing} {n : FogNode} {due : Option Errand}

/-- The node that a message tells a head to take in. -/
def Message.intake? : Message → Option EntityId
  | joinPuddle node => some node
  | relocate node => some node
  | leavePuddle _ => none
  | processNodeMove _ => none
  | updateLocation => none
  | nodeLeave => none
  | updateLatency => none

/-- The heads that a change of membership names. -/
def Transition.heads : Transition → List EntityId
  | joining target => [target]
  | relocating source target => [source, target]
  | departing source => source.toList

/-! ## Levels -/

theorem lists_intake_cases {head node : EntityId} {h : PuddleHead} (hh : r.puddleHead head = .ok h)
    (hl : (r.touch (r.intake head node h n)).Lists a k) : r.Lists a k ∨ a = head ∧ k = node := by
  unfold Registry.intake at hl
  split_ifs at hl with hstale
  · rw [touch_nothing] at hl
    exact .inl hl
  · exact (lists_admitting_iff hh (not_or.1 hstale).1).1 hl

namespace Reaction

/-- A head lists a node if it did before or is told to take the node in. -/
theorem lists_cases (h : Reaction c broker now r id msg out t) (hl : (r.touch t).Lists a k) :
    r.Lists a k ∨ a = id ∧ msg.intake? = some k := by
  have hintake : ∀ {node g x}, r.puddleHead id = .ok g →
      (r.touch (r.intake id node g x)).Lists a k → r.Lists a k ∨ a = id ∧ some node = some k :=
    fun hg hl => (lists_intake_cases hg hl).imp_right fun h => ⟨h.1, congrArg some h.2.symm⟩
  cases h with
  | ignores | rests | isGone | misses =>
    rw [touch_nothing] at hl
    exact .inl hl
  | moves | keeps | departs | measures => exact .inl (lists_touch_iff.1 hl)
  | takesIn hh | picksUp hh =>
    rw [lists_andThen_onNode_iff] at hl
    exact hintake hh hl
  | takesOver hh => exact hintake hh hl
  | strikesOff hh => exact .inl ((lists_outtake_iff hh).1 hl).1
  | @places _ _ _ p => cases p <;> exact .inl (lists_touch_iff.1 hl)

/-- The broker tells a head to take in nodes of its level only, and nobody else does. -/
theorem peers_of_answer (h : Reaction c broker now r id msg out t) (hr : r.Catalogued broker)
    (ho : o ∈ out) (hmsg : o.message.intake? = some k) : r.Peers o.receiver k := by
  have horder : o.message.IsOrder := by
    cases hm : o.message with
    | joinPuddle node => exact .joinPuddle node
    | relocate node => exact .relocate node
    | leavePuddle | processNodeMove | updateLocation | nodeLeave | updateLatency =>
      rw [hm] at hmsg
      cases hmsg
  obtain ⟨node, b, p, -, hb, heval, ho⟩ := h.decision_of_order ho horder
  obtain rfl := hr.single (kind_eq_broker_iff.2 ⟨b, hb⟩)
  have htarget : p.target? = some o.receiver ∧ node = k := by
    cases p with
    | stay | ignore => cases ho
    | join target | relocate source target =>
      obtain rfl := List.mem_singleton.1 ho
      exact ⟨rfl, Option.some.inj hmsg⟩
    | depart source =>
      obtain rfl := List.mem_singleton.1 ho
      cases hmsg
  obtain ⟨n, hn, hfind⟩ := evaluate_target heval htarget.1
  exact htarget.2 ▸ hr.peers_of_findHead hb hn hfind

end Reaction

variable {g : Regime} {s s' : Session World Payload} {e : Event Payload} {lossy : Prop}

namespace Session

/-- Heads list nodes of their own level only, and that is what messages tell them to do. -/
structure Levelled (s : Session World Payload) : Prop where
  /-- Heads list nodes of their own level. -/
  ranked : s.state.registry.Ranked
  /-- Messages tell heads to take in nodes of their own level. -/
  queued : ∀ ⦃e⦄, e ∈ s.simulation.queue.pending → ∀ {sender receiver msg k},
    e.payload = .deliver sender receiver msg → msg.intake? = some k →
      s.state.registry.Peers receiver k

theorem Levelled.afterStep (hs : Reachable g s) (h : s.Levelled) : s.afterStep.Levelled := by
  rcases reacts_or_idles hs.orderly with ⟨e, receiver, msg, out, t, hreacts⟩ | hidles
  · have hfaithful := hreacts.reaction.faithful
    obtain ⟨sender, he⟩ := hreacts.delivers.2
    refine ⟨fun a k hl => ?_, fun d hd {sender' receiver' msg' k} hp hmsg => ?_⟩
    · rw [hreacts.registry] at hl ⊢
      refine Peers.touch hfaithful ?_
      rcases hreacts.reaction.lists_cases hl with hold | ⟨rfl, hmsg⟩
      · exact h.ranked hold
      · exact h.queued hreacts.delivers.mem_pending he hmsg
    · rw [hreacts.registry]
      refine Peers.touch hfaithful ?_
      rcases hreacts.queue.pending d hd with hold | ⟨-, o, ho, hanswer⟩
      · exact h.queued hold hp hmsg
      · rw [hp] at hanswer
        obtain ⟨-, rfl, rfl⟩ := Payload.deliver.inj hanswer
        exact hreacts.reaction.peers_of_answer hs.catalogued ho hmsg
  · refine ⟨hidles.registry ▸ h.ranked, fun d hd {_ _ _ _} hp hmsg => ?_⟩
    rw [hidles.registry]
    exact h.queued ((hidles.queue.pending d hd).resolve_right fun hnew => hnew.2) hp hmsg

theorem Levelled.nudged (hadmits : ∀ now due p, g.admits now due p → p = .noop)
    (hnudged : s.Nudged g s') (h : s.Levelled) : s'.Levelled := by
  obtain ⟨t, ht, hregistry⟩ := hnudged.registry
  refine ⟨fun a k hl => ?_, fun d hd {_ _ _ _} hp hmsg => ?_⟩
  · rw [hregistry] at hl ⊢
    exact (h.ranked (ht.lists_iff.1 hl)).touch ht.faithful
  · rw [hregistry]
    rcases hnudged.queue.pending d hd with hold | ⟨-, now, due, hnew⟩
    · exact (h.queued hold hp hmsg).touch ht.faithful
    · rw [hadmits now due _ hnew] at hp
      cases hp

end Session

/-- While no message comes from outside, heads list nodes of their own level only. -/
theorem Reachable.levelled (hadmits : ∀ now due p, g.admits now due p → p = .noop)
    (hs : Reachable g s) : s.Levelled := by
  refine hs.invariant (P := Session.Levelled) ?_ ?_
  · intro b s hb h
    refine ⟨Builder.ranked_of_build hb h, fun e he {_ _ _ _} hp hmsg => ?_⟩
    rcases (Builder.built_of_build hb.draft h).payloads _ (List.mem_map_of_mem he) with
      ⟨k, n, -, htimer⟩ | ⟨due, hdue⟩
    · rw [hp] at htimer
      cases htimer
      cases hmsg
    · rw [hp] at hdue
      cases hadmits _ _ _ hdue
  · intro s s' hs hnext h
    rcases hnext.cases with rfl | hnudged
    · exact h.afterStep hs
    · exact h.nudged hadmits hnudged

/-! ## Nodes that remain -/

/-- A node is in the network and has not been told to leave it. -/
def Registry.Remains (r : Registry) (node : EntityId) : Prop :=
  ∃ n, r.fogNode node = .ok n ∧ n.standing ≠ .departed ∧
    ∀ source, n.pending ≠ some (.departing source)

/-- A node remains if it lives and is not on its way out. -/
theorem Registry.Expects.remains_iff (hk : r.Expects k due) :
    r.Remains k ↔ r.Lives k ∧ due ≠ some (k, .nodeLeave) := by
  obtain ⟨n, hn, hphase, -⟩ := hk
  have hremains : r.Remains k ↔ n.standing ≠ .departed ∧
      ∀ source, n.pending ≠ some (.departing source) :=
    ⟨fun ⟨m, hm, h⟩ => fogNode_inj hm hn ▸ h, fun h => ⟨n, hn, h⟩⟩
  rw [hremains, lives_iff hn]
  cases hphase with
  | rests hp hdue | joins _ hp hdue | relocates _ _ hp hdue | isHandedOver _ _ hp hdue =>
    simp [hp, hdue]
  | isDismissed _ hp hdue => simp [hp, hdue]
  | isGone hs hp _ => simp [hs, hp]

theorem Registry.Spares.remains_iff (ht : r.Spares t k) : (r.touch t).Remains k ↔ r.Remains k := by
  constructor
  · rintro ⟨m, hm, hlive, hpending⟩
    obtain ⟨n, hn, rfl⟩ := fogNode_touch_iff.1 hm
    rw [(ht.node hn).1] at hlive
    rw [(ht.node hn).2] at hpending
    exact ⟨n, hn, hlive, hpending⟩
  · rintro ⟨n, hn, hlive, hpending⟩
    refine ⟨_, fogNode_touch hn, ?_, ?_⟩
    · rwa [(ht.node hn).1]
    · rwa [(ht.node hn).2]

namespace Reaction

/-- A node is told to leave because the broker has decided that it has to. -/
theorem mem_errands_nodeLeave_iff (h : Reaction c broker now r id msg out t)
    (hr : r.Catalogued broker) (hb : r.broker broker = .ok b) :
    (k, .nodeLeave) ∈ errands k (out.map (·.payload)) ↔
      id = broker ∧ msg = .processNodeMove k ∧ ∃ source, r.evaluate b k = .ok (.depart source) := by
  rw [mem_errands_iff]
  constructor
  · rintro ⟨-, sender, hp⟩
    obtain ⟨o, ho, hpayload⟩ := List.mem_map.1 hp
    obtain ⟨-, hreceiver, hmsg⟩ := Payload.deliver.inj hpayload
    have horder : o.message.IsOrder := hmsg ▸ .nodeLeave
    obtain ⟨node, b', p, rfl, hb', heval, ho⟩ := h.decision_of_order ho horder
    obtain rfl := hr.single (kind_eq_broker_iff.2 ⟨b', hb'⟩)
    obtain rfl := Except.ok.inj (hb.symm.trans hb')
    cases p with
    | stay | ignore => cases ho
    | join target | relocate source target =>
      obtain rfl := List.mem_singleton.1 ho
      cases hmsg
    | depart source =>
      obtain rfl := List.mem_singleton.1 ho
      obtain rfl : node = k := hreceiver
      exact ⟨rfl, rfl, source, heval⟩
  · rintro ⟨rfl, rfl, source, heval⟩
    refine ⟨rfl, id, ?_⟩
    cases h with
    | ignores hkind hne =>
      rw [kind_eq_broker_iff.2 ⟨b, hb⟩] at hkind
      exact absurd (Except.ok.inj hkind).symm hne
    | places hb' _ _ heval' =>
      obtain rfl := Except.ok.inj (hb.symm.trans hb')
      obtain rfl := Except.ok.inj (heval.symm.trans heval')
      exact List.mem_singleton_self _

/-- A node that waits for its errand remains unless the broker decides that it has to leave. -/
theorem remains_iff (h : Reaction c broker now r id msg out t) (hr : r.Catalogued broker)
    (hb : r.broker broker = .ok b) (hk : r.Expects k due)
    (harrives : msg.traveller? id = some k → r.kind id = .ok msg.handler ∧ due = some (id, msg)) :
    (r.touch t).Remains k ↔ r.Remains k ∧ ¬ (id = broker ∧ msg = .processNodeMove k ∧
      ∃ source, r.evaluate b k = .ok (.depart source)) := by
  rw [← h.mem_errands_nodeLeave_iff hr hb]
  rcases h.course hk harrives with ⟨-, hspares, hout⟩ | ⟨hwhy, next, hnext, hout⟩
  · rw [hspares.remains_iff, hout]
    exact (and_iff_left List.not_mem_nil).symm
  · rw [hnext.remains_iff, hk.remains_iff, hout, Option.mem_toList]
    rcases hwhy with ⟨htrav, rfl⟩ | ⟨rfl, rfl⟩
    -- the node leaves, or its change goes on
    · by_cases hleave : msg = .nodeLeave
      · subst hleave
        obtain rfl : id = k := Option.some.inj htrav
        refine iff_of_false (fun hlives => ?_) fun hold => hold.1.2 rfl
        obtain ⟨n, hn, hphase, -⟩ := hk
        obtain ⟨m, -, -, rfl, -⟩ := h.of_nodeLeave ((Registry.lives_iff hn).2 hphase.of_nodeLeave.1)
        exact (lives_departing_iff.1 hlives.1).2 rfl
      · rw [h.lives_iff fun hc => hleave hc.1]
        have hdue : some (id, msg) ≠ some (k, .nodeLeave) := fun hc =>
          hleave (Prod.mk.inj (Option.some.inj hc)).2
        rw [and_iff_left hdue]
    -- the broker decides
    · have hdue : (none : Option Errand) ≠ some (k, .nodeLeave) := nofun
      have hstay : ¬ (Message.processNodeMove k = .nodeLeave ∧ id = k) := fun hc => nomatch hc.1
      rw [h.lives_iff hstay, and_iff_left hdue]

end Reaction

namespace Session

/-- If a message is about a node, the node has waited for it. -/
theorem Quiet.arrives (hq : s.Quiet lossy) (hdelivers : s.Delivers e id msg)
    (hwaits : s.errands k = due.toList ∨ lossy ∧ s.errands k = [])
    (htrav : msg.traveller? id = some k) :
    s.state.registry.kind id = .ok msg.handler ∧ due = some (id, msg) := by
  obtain ⟨sender, he⟩ := hdelivers.2
  have hmem : .deliver sender id msg ∈ s.payloads :=
    he ▸ List.mem_map_of_mem hdelivers.mem_pending
  have herrand : (id, msg) ∈ s.errands k := mem_errands_iff.2 ⟨htrav, sender, hmem⟩
  refine ⟨(hq.addressed hmem).1, ?_⟩
  rcases hwaits with hwaits | ⟨-, hwaits⟩
  · rwa [hwaits, Option.mem_toList] at herrand
  · rw [hwaits] at herrand
    cases herrand

/-- In a step the nodes remain that the broker does not dismiss. -/
theorem remains_afterStep (hs : Reachable g s) (hq : s.Quiet lossy)
    (hk : s.state.registry.kind k = .ok .fogNode) :
    s.afterStep.state.registry.Remains k ↔ s.state.registry.Remains k ∧ ¬ s.Dismisses k := by
  obtain ⟨b, hb⟩ := kind_eq_broker_iff.1 hs.broker
  rcases reacts_or_idles hs.orderly with ⟨e, receiver, msg, out, t, hreacts⟩ | hidles
  · obtain ⟨due, hdue, hwaits⟩ := hq.expects hk
    rw [hreacts.registry, hreacts.reaction.remains_iff hs.catalogued hb hdue
      (hq.arrives hreacts.delivers hwaits), hreacts.dismisses_iff hb]
  · rw [hidles.registry]
    exact (and_iff_left fun ⟨_, hd⟩ => hidles.not_decides hd).symm

end Session

/-- While no message comes from outside, the broker counts the nodes that remain. -/
theorem Reachable.counts_remaining (hadmits : ∀ now due p, g.admits now due p → p = .noop)
    (hs : Reachable g s) (hb : s.state.registry.broker s.state.broker = .ok b) :
    k ∈ b.fogNodes ↔ s.state.registry.Remains k := by
  refine hs.invariant (P := fun s => ∀ {b}, s.state.registry.broker s.state.broker = .ok b →
    (k ∈ b.fogNodes ↔ s.state.registry.Remains k)) ?_ ?_ hb
  · intro d s hd h b hb
    rw [(Builder.catalogued_of_build hd h).2 hb]
    refine ⟨fun hk => ?_, fun ⟨n, hn, _⟩ => kind_eq_fogNode_iff.2 ⟨n, hn⟩⟩
    obtain ⟨n, hn⟩ := kind_eq_fogNode_iff.1 hk
    obtain ⟨hpending, hlive, -⟩ := (Builder.built_of_build hd.draft h).settled hn
    exact ⟨n, hn, hlive, fun source => by simp [hpending]⟩
  · intro s s' hs hnext ih b' hb'
    obtain ⟨b, hb⟩ := kind_eq_broker_iff.1 hs.broker
    rcases hnext.cases with rfl | hnudged
    · rw [Session.afterStep_broker hs.orderly] at hb'
      rw [Session.counted_afterStep hs hb hb', ih hb]
      by_cases hk : s.state.registry.kind k = .ok .fogNode
      · exact (Session.remains_afterStep hs (hs.quiet hadmits) hk).symm
      · have hnone : ∀ {r : Registry}, r.Remains k → r.kind k = .ok .fogNode :=
          fun ⟨n, hn, _⟩ => kind_eq_fogNode_iff.2 ⟨n, hn⟩
        refine iff_of_false (fun h => hk (hnone h.1)) fun h => hk ?_
        rw [← Session.afterStep_kind hs.orderly]
        exact hnone h
    · obtain ⟨t, ht, hregistry⟩ := hnudged.registry
      rw [hregistry, hnudged.broker] at hb'
      obtain ⟨b₀, hb₀, rfl⟩ := broker_touch_iff.1 hb'
      rw [ht.broker, ih hb₀, hregistry, ht.spares.remains_iff]

/-! ## Runs in which all steps succeed -/

/-- A head that a change names lists the node, or the message is on its way that tells it to. -/
theorem Registry.Expects.lists_or_due {transition : Transition} (hk : r.Expects k due)
    (hn : r.fogNode k = .ok n) (hp : n.pending = some transition) (ha : a ∈ transition.heads) :
    r.Lists a k ∨ ∃ msg, due = some (a, msg) ∧ msg.intake? = some k := by
  obtain ⟨m, hm, hphase, hlists⟩ := hk
  obtain rfl := fogNode_inj hn hm
  have hmay : (∃ target, n.pending = some (.relocating a target)) ∨
      n.pending = some (.departing (some a)) ∨ n.standing = .owned a → r.Lists a k := fun h => by
    rw [hlists, mayList_iff]
    tauto
  cases transition with
  | joining target =>
    obtain rfl := List.mem_singleton.1 ha
    cases hphase with
    | joins _ hp' hdue =>
      rw [hp] at hp'
      cases hp'
      exact .inr ⟨_, hdue, rfl⟩
    | rests hp' | relocates _ _ hp' | isHandedOver _ _ hp' | isDismissed _ hp' | isGone _ hp' =>
      rw [hp] at hp'
      cases hp'
  | relocating source target =>
    rcases List.mem_cons.1 ha with rfl | ha
    · exact .inl (hmay (.inl ⟨target, hp⟩))
    · obtain rfl := List.mem_singleton.1 ha
      cases hphase with
      | relocates _ _ hp' hdue =>
        rw [hp] at hp'
        cases hp'
        exact .inr ⟨_, hdue, rfl⟩
      | isHandedOver _ hs hp' =>
        rw [hp] at hp'
        cases hp'
        exact .inl (hmay (.inr (.inr hs)))
      | rests hp' | joins _ hp' | isDismissed _ hp' | isGone _ hp' =>
        rw [hp] at hp'
        cases hp'
  | departing source =>
    obtain rfl : source = some a := Option.mem_toList.1 ha
    exact .inl (hmay (.inr (.inl hp)))

/-- The broker's indices are exact, and whoever has to do with each other is of one level. -/
structure Session.InRank (heads : List (EntityId × Level)) (s : Session World Payload)
    (b : Broker) : Prop where
  /-- The index of active nodes has the nodes that are neither departed nor on their way out. -/
  counts : ∀ k, k ∈ b.fogNodes ↔ ∃ n, s.state.registry.fogNode k = .ok n ∧
    n.standing ≠ .departed ∧ ∀ source, n.pending ≠ some (.departing source)
  /-- Members are of the level of their head. -/
  members : ∀ {a h k}, s.state.registry.puddleHead a = .ok h → k ∈ h.members →
    ∃ n, s.state.registry.fogNode k = .ok n ∧ n.level = h.level
  /-- An owner is of the level of its node. -/
  owner : ∀ {k n a}, s.state.registry.fogNode k = .ok n → n.owner? = some a →
    ∃ h, s.state.registry.puddleHead a = .ok h ∧ h.level = n.level
  /-- The heads that a change names are of the level of the node. -/
  pending : ∀ {k n transition a}, s.state.registry.fogNode k = .ok n →
    n.pending = some transition → a ∈ transition.heads →
      ∃ h, s.state.registry.puddleHead a = .ok h ∧ h.level = n.level
  /-- A head that a message on its way tells to take a node in is of the level of the node. -/
  queued : ∀ {e sender a msg k}, e ∈ s.simulation.queue.pending →
    e.payload = .deliver sender a msg → msg.intake? = some k →
      ∃ h n, s.state.registry.puddleHead a = .ok h ∧ s.state.registry.fogNode k = .ok n ∧
        h.level = n.level
  /-- The heads of a level are listed in the order in which they were registered. -/
  lines : ∀ level, b.headsAt level = Builder.ofLevel heads level
  /-- The heads of a level are listed and nobody else. -/
  exact : ∀ level a, a ∈ b.headsAt level ↔
    ∃ h, s.state.registry.puddleHead a = .ok h ∧ h.level = level
  /-- No head is listed twice. -/
  once : ∀ level, (b.headsAt level).Nodup

/-- The broker's lists of heads stay as they are. -/
theorem Session.Onward.lines {heads : List (EntityId × Level)} {q : Session World Payload}
    (hq : Reachable g q) (h : q.Onward g s)
    (hlines : Builder.Lines q.state.registry q.state.broker heads) :
    Builder.Lines s.state.registry s.state.broker heads := by
  induction h with
  | refl => exact hlines
  | @tail s s' honward hnext ih =>
    have hs := hq.onward honward
    rcases hnext.cases with rfl | hnudged
    · rw [Session.afterStep_broker hs.orderly]
      rcases Session.reacts_or_idles hs.orderly with ⟨e, receiver, msg, out, t, hreacts⟩ | hidles
      · rw [hreacts.registry]
        exact ih.touch hreacts.reaction.faithful
      · rwa [hidles.registry]
    · obtain ⟨t, ht, hregistry⟩ := hnudged.registry
      rw [hregistry, hnudged.broker]
      exact ih.touch ht.faithful

theorem Reachable.peers_of_pending {transition : Transition} (hs : Reachable .flawless s)
    (hn : s.state.registry.fogNode k = .ok n) (hp : n.pending = some transition)
    (ha : a ∈ transition.heads) : s.state.registry.Peers a k := by
  have hadmits : ∀ now due p, Regime.flawless.admits now due p → p = .noop := fun _ _ _ h => h
  have hlevelled := hs.levelled hadmits
  obtain ⟨due, hdue, hwaits⟩ := (hs.quiet hadmits).errands_eq (fun ⟨_, h⟩ => h)
    (kind_eq_fogNode_iff.2 ⟨n, hn⟩)
  rcases hdue.lists_or_due hn hp ha with hlists | ⟨msg, rfl, hmsg⟩
  · exact hlevelled.ranked hlists
  · have herrand : (a, msg) ∈ s.errands k := hwaits ▸ List.mem_singleton_self _
    obtain ⟨-, sender, hp⟩ := mem_errands_iff.1 herrand
    obtain ⟨e, he, hpayload⟩ := List.mem_map.1 hp
    exact hlevelled.queued he hpayload hmsg

/-- In a run of a finished network in which no message comes from outside and all steps succeed, the
broker's index of active nodes has exactly the nodes that are neither departed nor on their way out,
members, owners, heads that a change names and heads that are told to take a node in are of the
level of the node, and the broker lists the heads of each level in the order in which they were
registered, each of them once and nobody else. -/
theorem Builder.Registers.inRank {heads : List (EntityId × Level)} {d : Builder}
    {q : Session World Payload} (hd : d.Registers (Regime.flawless.admits 0) heads)
    (hbuild : d.build = .ok q) (honward : q.Onward .flawless s) :
    ∃ b, s.state.registry.broker s.state.broker = .ok b ∧ s.InRank heads b := by
  have hadmits : ∀ now due p, Regime.flawless.admits now due p → p = .noop := fun _ _ _ h => h
  have hq : Reachable .flawless q := .built hd.made hbuild
  have hs := hq.onward honward
  have hlevelled := hs.levelled hadmits
  obtain ⟨b, hb⟩ := kind_eq_broker_iff.1 hs.broker
  refine ⟨b, hb, ?_⟩
  constructor
  case counts => exact fun k => hs.counts_remaining hadmits hb
  case members =>
    intro a h k hh hk
    obtain ⟨g, n, hg, hn, hlevel⟩ := hlevelled.ranked ⟨h, hh, hk⟩
    exact ⟨n, hn, puddleHead_inj hg hh ▸ hlevel⟩
  case owner =>
    intro k n a hn howner
    have hlists := hs.orderly.enrolled.owned ((owns_iff_owner? hn).2 howner)
    obtain ⟨h, m, hh, hm, hlevel⟩ := hlevelled.ranked hlists
    exact ⟨h, hh, fogNode_inj hm hn ▸ hlevel.symm⟩
  case pending =>
    intro k n transition a hn hp ha
    obtain ⟨h, m, hh, hm, hlevel⟩ := hs.peers_of_pending hn hp ha
    exact ⟨h, hh, fogNode_inj hm hn ▸ hlevel.symm⟩
  case queued =>
    intro e sender a msg k he hp hmsg
    obtain ⟨h, n, hh, hn, hlevel⟩ := hlevelled.queued he hp hmsg
    exact ⟨h, n, hh, hn, hlevel.symm⟩
  case lines => exact Session.Onward.lines hq honward (Builder.lines_of_build hd hbuild) hb
  case exact => exact fun level a => hs.catalogued.mem_headsAt_iff hb
  case once => exact fun level => (hs.catalogued.ascending hb level).imp Nat.ne_of_lt

namespace Crossing

theorem onward_handover {g : Regime} : first.Onward g handover :=
  Session.onward_runFor (runFor_of_after start_eq (Option.some_get isSome_after_three).symm)

theorem headsAt_handover : (handover.state.registry.broker handover.state.broker).toOption.map
    (fun b => b.headsAt 0) = some [west, east] := by decide +kernel

end Crossing

/-- While the walker is handed over, the broker lists the western head and then the eastern one. -/
theorem Builder.Registers.inRank_walker : ∃ heads b,
    Crossing.handover.state.registry.broker Crossing.handover.state.broker = .ok b ∧
      Crossing.handover.InRank heads b ∧
      Builder.ofLevel heads 0 = [Crossing.west, Crossing.east] := by
  obtain ⟨d, hd, hbuild⟩ := Crossing.made_of_start Crossing.start_eq
  obtain ⟨heads, hheads⟩ := hd.registers
  obtain ⟨b, hb, hrank⟩ := Builder.Registers.inRank hheads hbuild Crossing.onward_handover
  have hlisted := Crossing.headsAt_handover
  rw [hb] at hlisted
  exact ⟨heads, b, hb, hrank, (hrank.lines 0).symm.trans (Option.some.inj hlisted)⟩

end FogNet
