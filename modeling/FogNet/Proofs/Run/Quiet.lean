import FogNet.Proofs.Run.Errand
import FogNet.Proofs.Run.Reachable

/-!
# Runs without messages from outside

While nobody but the network itself sends messages, each node waits for the one errand of it that is
on its way, and every message is on its way to an entity that deals with it (`Session.Quiet`). An
errand is lost only if it could not be posted, so only in a run that goes on after a failure. All
reachable sessions of such a regime are quiet (`Reachable.quiet`).
-/

namespace FogNet

open Registry

/-- The errands of a node that wait for delivery. -/
def Session.errands (s : Session World Payload) (node : EntityId) : List Errand :=
  FogNet.errands node s.payloads

/-- A node waits for an errand. Of its errands on the way, those that count are this one, if it
counts itself, and no others. In a `lossy` run it may be missing. -/
def Session.Awaits (counts : Errand → Bool) (lossy : Prop) (s : Session World Payload)
    (node : EntityId) : Prop :=
  ∃ due, s.state.registry.Expects node due ∧
    ((s.errands node).filter counts = due.toList.filter counts ∨
      lossy ∧ (s.errands node).filter counts = [])

/-- All messages are on their way to entities that deal with them, and each node waits for the
errand of it that is on its way. In a `lossy` run the errand may be missing. -/
structure Session.Quiet (lossy : Prop) (s : Session World Payload) : Prop where
  /-- Messages go to entities that deal with them. -/
  addressed : ∀ {sender receiver msg}, .deliver sender receiver msg ∈ s.payloads →
    Addressed s.state.registry receiver msg
  /-- Nodes wait for their errands. -/
  expects : ∀ {k}, s.state.registry.kind k = .ok .fogNode → ∃ due,
    s.state.registry.Expects k due ∧ (s.errands k = due.toList ∨ lossy ∧ s.errands k = [])

/-- The records pass all checks if each node waits for an errand, or for none: two heads may list a
node only while they hand it over. -/
theorem Registry.checkAll_of_expects {r : Registry} (hr : r.Orderly)
    (h : ∀ {k}, r.kind k = .ok .fogNode → ∃ due, r.Expects k due) : r.checkAll = .ok () := by
  refine checkAll_of_orderly hr (fun k n hn => ?_) fun {k n a b} hn hab ha hb => ?_
  · obtain ⟨due, m, hm, -, hlists⟩ := h (kind_eq_fogNode_iff.2 ⟨n, hn⟩)
    rwa [fogNode_inj hn hm]
  · obtain ⟨due, m, hm, hphase, -⟩ := h (kind_eq_fogNode_iff.2 ⟨n, hn⟩)
    obtain rfl := fogNode_inj hn hm
    obtain ⟨source, target, hp, hends⟩ := hphase.two_heads hab ha hb
    unfold isHandedOver
    simp only [hn, hp]
    rcases hends with ⟨rfl, rfl⟩ | ⟨rfl, rfl⟩ <;> simp

/-- The records of a quiet session pass all checks. -/
theorem Session.Quiet.checkAll {lossy : Prop} {s : Session World Payload} (hq : s.Quiet lossy)
    (hr : s.state.registry.Orderly) : s.state.registry.checkAll = .ok () :=
  checkAll_of_expects hr fun hk => (hq.expects hk).imp fun _ h => h.1

/-! ## Errands that are posted -/

variable {k : EntityId} {l rest : List Payload} {out sent : List Outgoing} {due : Option Errand}
  {ok lossy : Prop} {counts : Errand → Bool}

theorem eq_some_of_cons {α : Type} {a : α} {l : List α} {o : Option α} (h : a :: l = o.toList) :
    o = some a ∧ l = [] := by
  cases o with
  | none => cases h
  | some b =>
    obtain ⟨rfl, hnil⟩ := List.cons.inj h
    exact ⟨rfl, hnil⟩

theorem eq_toList_of_perm {α : Type} {l : List α} {o : Option α} (h : l.Perm o.toList) :
    l = o.toList := by
  cases o with
  | none => exact List.perm_nil.1 h
  | some a => exact List.perm_singleton.1 h

theorem errands_cons_self {sender id : EntityId} {msg : Message} (h : msg.traveller? id = some k) :
    errands k (.deliver sender id msg :: rest) = (id, msg) :: errands k rest :=
  List.filterMap_cons_some (if_pos h)

theorem errands_cons_of_ne {sender id : EntityId} {msg : Message} (h : msg.traveller? id ≠ some k) :
    errands k (.deliver sender id msg :: rest) = errands k rest := by
  have hnone : (Payload.deliver sender id msg).errand? k = none := if_neg h
  exact List.filterMap_cons_none hnone

theorem errands_perm (h : l.Perm (sent.map Outgoing.payload ++ rest)) :
    (errands k l).Perm (errands k (sent.map (·.payload)) ++ errands k rest) := by
  unfold errands
  rw [← List.filterMap_append]
  exact h.filterMap _

theorem errands_sent (h : sent <+: out) :
    errands k (sent.map (·.payload)) <+: errands k (out.map (·.payload)) :=
  (h.map _).filterMap _

theorem errands_post_perm (q : EventQueue Payload) (time : Time) (p : Payload) :
    (errands k (q.post time p).payloads).Perm (errands k (p :: q.payloads)) :=
  (payloads_post_perm q time p).filterMap _

/-- If all that is on its way for a node is what the node waits for, so is a message that moves the
node on. -/
theorem due_of_arrived {sender id : EntityId} {msg : Message} (htrav : msg.traveller? id = some k)
    (h : errands k (.deliver sender id msg :: rest) = due.toList) :
    due = some (id, msg) ∧ errands k rest = [] := by
  rw [errands_cons_self htrav] at h
  exact eq_some_of_cons h

/-- All that waits after a reaction is addressed well if all that waited before was. -/
theorem addressed_after {r : Registry} {settings : Settings} {broker id sender receiver : EntityId}
    {now : Time} {msg msg' : Message} {t : Touch} (hr : r.Orderly)
    (hbroker : r.kind broker = .ok .broker) (hreact : Reaction settings broker now r id msg out t)
    (hsent : sent <+: out) (hrest : l.Perm (sent.map Outgoing.payload ++ rest))
    (hp : .deliver sender receiver msg' ∈ l)
    (hold : .deliver sender receiver msg' ∈ rest → Addressed r receiver msg') :
    Addressed (r.touch t) receiver msg' := by
  rw [addressed_touch_iff]
  rcases List.mem_append.1 (hrest.mem_iff.1 hp) with hp | hp
  · obtain ⟨o, ho, he⟩ := List.mem_map.1 hp
    cases he
    exact hreact.addressed hr hbroker o (hsent.subset ho)
  · exact hold hp

/-- At most one errand is sent, and it is posted unless the run is lossy. -/
theorem posted_or_lost {α : Type} {o : Option α} {l e : List α} (hpre : l <+: o.toList)
    (hall : ok → l = o.toList) (hok : ok ∨ lossy) (he : e.Perm l) :
    e = o.toList ∨ lossy ∧ e = [] := by
  by_cases hsent : l = o.toList
  · exact .inl (eq_toList_of_perm (hsent ▸ he))
  · refine .inr ⟨hok.resolve_left fun h => hsent (hall h), ?_⟩
    have hnil : l = [] := by
      cases o with
      | none => exact List.prefix_nil.1 hpre
      | some a =>
        rcases List.prefix_cons_iff.1 hpre with h | ⟨t, ht, hnil⟩
        · exact h
        · rw [List.prefix_nil.1 hnil] at ht
          exact absurd ht hsent
    exact List.perm_nil.1 (hnil ▸ he)

/-! ## Steps keep a session quiet -/

namespace Session

variable {s s' : Session World Payload}

/-- An event without a message is no errand. -/
theorem errands_of_noop (hqueue : s.payloads = .noop :: rest) (hrest : s'.payloads = rest) :
    s'.errands k = s.errands k := by
  unfold errands
  rw [hqueue, hrest]
  rfl

/-- What does not count on the way and changes of other nodes do not matter to a node. -/
theorem Awaits.perm (hk : s.Awaits counts lossy k)
    (hregistry : ∀ {due}, s.state.registry.Expects k due → s'.state.registry.Expects k due)
    (hperm : ((s'.errands k).filter counts).Perm ((s.errands k).filter counts)) :
    s'.Awaits counts lossy k := by
  obtain ⟨due, hdue, herrands⟩ := hk
  refine ⟨due, hregistry hdue, herrands.imp (fun h => ?_) (And.imp_right fun h => ?_)⟩
  · rw [h, ← Option.toList_filter] at hperm
    rw [eq_toList_of_perm hperm, Option.toList_filter]
  · exact List.perm_nil.1 (h ▸ hperm)

/-- What becomes of the errand of a node when the receiver of a message reacts. -/
theorem Awaits.react {sender id : EntityId} {msg : Message} {now : Time} {t : Touch}
    {settings : Settings} {broker : EntityId} (hk : s.Awaits counts lossy k) (hok : ok ∨ lossy)
    (harrives : msg.traveller? id = some k →
      s.state.registry.kind id = .ok msg.handler ∧ counts (id, msg) = true)
    (hqueue : s.payloads = .deliver sender id msg :: rest)
    (hreact : Reaction settings broker now s.state.registry id msg out t)
    (hsent : sent <+: out) (hall : ok → sent = out)
    (hrest : s'.payloads.Perm (sent.map Outgoing.payload ++ rest))
    (hregistry : s'.state.registry = s.state.registry.touch t) : s'.Awaits counts lossy k := by
  have ⟨due, hdue, herrands⟩ := hk
  have hperm : ((s'.errands k).filter counts).Perm _ := (errands_perm hrest).filter counts
  rw [List.filter_append] at hperm
  have harrived : msg.traveller? id = some k →
      due = some (id, msg) ∧ (FogNet.errands k rest).filter counts = [] := by
    intro htrav
    have hold : (s.errands k).filter counts =
        (id, msg) :: (FogNet.errands k rest).filter counts := by
      unfold errands
      rw [hqueue, errands_cons_self htrav, List.filter_cons_of_pos (harrives htrav).2]
    rw [hold] at herrands
    rcases herrands with herrands | ⟨-, herrands⟩
    · rw [← Option.toList_filter] at herrands
      obtain ⟨he, hnil⟩ := eq_some_of_cons herrands
      exact ⟨(Option.filter_eq_some_iff.1 he).1, hnil⟩
    · cases herrands
  rcases hreact.course hdue fun htrav => ⟨(harrives htrav).1, (harrived htrav).1⟩ with
    ⟨htrav, ht, hout⟩ | ⟨hwhy, next, hnext, hout⟩
  -- a message that does not move the node on leaves its errand on the way
  · have hold : s.errands k = FogNet.errands k rest := by
      unfold errands
      rw [hqueue, errands_cons_of_ne htrav]
    have hnone : FogNet.errands k (sent.map (·.payload)) = [] :=
      List.prefix_nil.1 (hout ▸ errands_sent hsent)
    rw [hnone, List.filter_nil, List.nil_append, ← hold] at hperm
    exact hk.perm (fun h => hregistry ▸ h.spared ht) hperm
  -- the errand has arrived, or none was due, lost or not
  · have hnil : (FogNet.errands k rest).filter counts = [] := by
      rcases hwhy with ⟨htrav, -⟩ | ⟨rfl, rfl⟩
      · exact (harrived htrav).2
      · have htrav : (Message.processNodeMove k).traveller? id ≠ some k := nofun
        have hold : s.errands k = FogNet.errands k rest := by
          unfold errands
          rw [hqueue, errands_cons_of_ne htrav]
        rw [← hold]
        rcases herrands with herrands | ⟨-, herrands⟩ <;> exact herrands
    rw [hnil, List.append_nil] at hperm
    have hpre : (FogNet.errands k (sent.map (·.payload))).filter counts <+:
        (next.filter counts).toList := by
      rw [Option.toList_filter, ← hout]
      exact (errands_sent hsent).filter counts
    have hposted := posted_or_lost hpre
      (fun h => by rw [Option.toList_filter, ← hout, hall h]) hok hperm
    rw [Option.toList_filter] at hposted
    exact ⟨next, hregistry ▸ hnext, hposted⟩

/-- What a node waits for if all errands count. -/
theorem awaits_all_iff : s.Awaits (fun _ => true) lossy k ↔ ∃ due,
    s.state.registry.Expects k due ∧ (s.errands k = due.toList ∨ lossy ∧ s.errands k = []) := by
  have hall : ∀ l : List Errand, l.filter (fun _ => true) = l := fun l =>
    List.filter_eq_self.2 fun _ _ => rfl
  unfold Awaits
  simp only [hall]

/-- Unless the run is lossy, what is on its way for a node is the errand for which it waits. -/
theorem Quiet.errands_eq (hq : s.Quiet lossy) (hl : ¬ lossy)
    (hk : s.state.registry.kind k = .ok .fogNode) :
    ∃ due, s.state.registry.Expects k due ∧ s.errands k = due.toList :=
  (hq.expects hk).imp fun _ => And.imp_right fun h => h.resolve_right fun h => hl h.1

/-- A step that succeeds, or fails in a lossy run, keeps a session quiet. -/
theorem Quiet.advance (hr : s.state.registry.Orderly)
    (hbroker : s.state.registry.kind s.state.broker = .ok .broker) (hq : s.Quiet lossy)
    (h : s.Advance ok s') (hok : ok ∨ lossy) : s'.Quiet lossy := by
  cases h with
  | rests hrest hregistry =>
    refine ⟨fun {_ _ _} hp => ?_, fun {k} hk => ?_⟩
    · rw [hregistry]
      exact hq.addressed (hrest ▸ hp)
    · unfold errands
      rw [hregistry] at hk ⊢
      rw [hrest]
      exact hq.expects hk
  | passes hqueue hrest hregistry =>
    refine ⟨fun {_ _ _} hp => ?_, fun {k} hk => ?_⟩
    · rw [hregistry]
      exact hq.addressed (by rw [hqueue, ← hrest]; exact List.mem_cons_of_mem _ hp)
    · rw [hregistry] at hk ⊢
      rw [errands_of_noop hqueue hrest]
      exact hq.expects hk
  | fails _ hqueue hres =>
    have haddressed := hq.addressed (by rw [hqueue]; exact List.mem_cons_self)
    exact absurd haddressed.resolved hres
  | reacts hqueue hreact hsent hall hrest hregistry =>
    refine ⟨fun {sender receiver msg} hp => ?_, fun {k} hk => ?_⟩
    · rw [hregistry]
      exact addressed_after hr hbroker hreact hsent hrest hp fun hp =>
        hq.addressed (by rw [hqueue]; exact List.mem_cons_of_mem _ hp)
    · rw [hregistry, kind_touch] at hk
      have haddressed := hq.addressed (by rw [hqueue]; exact List.mem_cons_self)
      exact awaits_all_iff.1 ((awaits_all_iff.2 (hq.expects hk)).react hok
        (fun _ => ⟨haddressed.1, rfl⟩) hqueue hreact hsent hall hrest hregistry)

end Session

/-! ## Reachable sessions are quiet -/

theorem Touch.Slight.spares {r : Registry} {t : Touch} (ht : t.Slight) : r.Spares t k :=
  ⟨fun {n} _ => ⟨(ht.node k n).1, (ht.node k n).2.2⟩, fun _ => ht.lists_iff⟩

variable {s : Session World Payload} {n : FogNode} {admits : Time → Payload → Prop} {g : Regime}

/-- At the start no node waits for an errand. -/
theorem Builder.Built.expects (hs : Builder.Built admits s)
    (hn : s.state.registry.fogNode k = .ok n) : s.state.registry.Expects k none := by
  obtain ⟨hpending, -, hlists⟩ := hs.settled hn
  refine ⟨n, hn, .rests hpending rfl, fun a => ?_⟩
  rw [hlists, mayList_iff, hpending]
  simp

/-- A network starts quietly if no messages are to be delivered from outside. -/
theorem Builder.Built.quiet (hs : Builder.Built admits s)
    (hadmits : ∀ due p, admits due p → p = .noop) : s.Quiet lossy := by
  refine ⟨fun {sender receiver msg} hp => ?_, fun {k} hk => ?_⟩
  · rcases hs.payloads _ hp with ⟨k, n, hn, he⟩ | ⟨due, hdue⟩
    · cases he
      exact ⟨kind_eq_fogNode_iff.2 ⟨n, hn⟩, nofun⟩
    · cases hadmits _ _ hdue
  · obtain ⟨n, hn⟩ := kind_eq_fogNode_iff.1 hk
    refine ⟨none, hs.expects hn, .inl (List.filterMap_eq_nil_iff.2 fun p hp => ?_)⟩
    rcases hs.payloads p hp with ⟨k, n, -, rfl⟩ | ⟨due, hdue⟩
    · rfl
    · rw [hadmits _ _ hdue]
      rfl

/-- Under a regime that admits no messages all reachable sessions are quiet. They are lossy if the
run may go on after a failure. -/
theorem Reachable.quiet (hadmits : ∀ now due p, g.admits now due p → p = .noop)
    (hs : Reachable g s) : s.Quiet (∃ fault, g.survives fault) := by
  induction hs with
  | built hb h => exact (Builder.built_of_build hb.draft h).quiet fun due p => hadmits 0 due p
  | stepped hs h ih =>
    exact ih.advance hs.orderly hs.broker (Session.advance_of_ok hs.orderly h).1 (.inl trivial)
  | failed hs h hf ih =>
    exact ih.advance hs.orderly hs.broker (Session.advance_of_error hs.orderly h).1 (.inr ⟨_, hf⟩)
  | @posted s due p hs h ih =>
    obtain rfl := hadmits _ _ _ h
    refine ⟨fun {_ _ _} hp => ?_, fun {k} hk => ?_⟩
    · rcases mem_payloads_post.1 hp with hp | hp
      · cases hp
      · exact ih.addressed hp
    · exact Session.awaits_all_iff.1 ((Session.awaits_all_iff.2 (ih.expects hk)).perm (fun h => h)
        ((errands_post_perm _ _ _).filter _))
  | waited _ _ ih => exact ⟨ih.addressed, ih.expects⟩
  | intervened _ h ih =>
    obtain ⟨t, ht, rfl⟩ := h.slight
    refine ⟨fun {_ _ _} hp => addressed_touch_iff.2 (ih.addressed hp), fun {k} hk => ?_⟩
    rw [kind_touch] at hk
    obtain ⟨due, hdue, herrands⟩ := ih.expects hk
    exact ⟨due, hdue.spared ht.spares, herrands⟩

end FogNet
