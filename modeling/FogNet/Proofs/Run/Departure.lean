import FogNet.Proofs.Run.History
import FogNet.Proofs.Run.Quiet

/-!
# Nodes that are told to leave

From outside, nodes may be told at any instant to leave the network. As long as a node lives, its
change goes on as if nobody had posted anything (`Reachable.steady`). A node that has gone never
comes back (`Reaction.lives_iff`), and all that can still happen to it is that heads strike it off
(`Reaction.of_gone`). The records agree after every event exactly if no node was told to leave while
two heads listed it (`History.checkAll_iff_of_departures`): a node that goes while it is handed over
stays on two lists, and nothing says any longer that it was handed over (`Crossing.torn_apart`).
-/

namespace FogNet

open Registry

/-- Nodes may be told from outside to leave the network. -/
def Regime.departures (survives : Fault → Prop) : Regime :=
  ⟨fun _ _ p => p = .noop ∨ ∃ sender receiver, p = .deliver sender receiver .nodeLeave, survives⟩

/-- Whether an errand is part of a change from one head to another. -/
def isTransfer (e : Errand) : Bool := e.2 ≠ .nodeLeave

/-- The record of a node that has left the network: it waits for a head to strike it off, or for
nothing. -/
structure FogNode.Gone (n : FogNode) : Prop where
  /-- It has departed. -/
  standing : n.standing = .departed
  /-- If it waits, then for its last head. -/
  pending : ∀ {transition}, n.pending = some transition →
    ∃ head, transition = .departing (some head)

variable {c : Settings} {broker id head k a b : EntityId} {now : Time} {r : Registry}
  {msg : Message} {out : List Outgoing} {t : Touch} {n m : FogNode} {h : PuddleHead}
  {due : Option Errand} {l : List Payload}

/-! ## Who comes and goes -/

namespace Reaction

/-- A node that lives leaves the network when it is told to. -/
theorem of_nodeLeave (h : Reaction c broker now r k .nodeLeave out t) (hk : r.Lives k) :
    ∃ n, r.fogNode k = .ok n ∧ n.standing ≠ .departed ∧ t = departing k n ∧
      out = n.farewell c k := by
  obtain ⟨n, hn, hlive⟩ := hk
  cases h with
  | ignores hkind hne =>
    rw [kind_eq_fogNode_iff.2 ⟨n, hn⟩] at hkind
    exact absurd (Except.ok.inj hkind).symm hne
  | isGone hm hgone => exact absurd (fogNode_inj hm hn ▸ hgone) hlive
  | departs hm =>
    obtain rfl := fogNode_inj hm hn
    exact ⟨_, hn, hlive, rfl, rfl⟩

/-- Nobody comes back, and nobody leaves the network without being told to. -/
theorem lives_iff (h : Reaction c broker now r id msg out t)
    (hstay : ¬ (msg = .nodeLeave ∧ id = k)) : (r.touch t).Lives k ↔ r.Lives k := by
  have hintake : ∀ {node g x}, r.fogNode node = .ok x →
      ((r.touch (r.intake id node g x)).Lives k ↔ r.Lives k) := by
    intro node g x hx
    unfold Registry.intake
    split_ifs with hstale
    · rw [touch_nothing]
    · exact lives_admitting_iff hx (not_or.1 hstale).2
  cases h with
  | ignores | rests | isGone | misses => rw [touch_nothing]
  | moves | keeps => exact lives_onNode_iff fun _ => rfl
  | departs =>
    rw [lives_departing_iff]
    exact and_iff_left fun hk => hstay ⟨rfl, hk.symm⟩
  | takesIn _ hn =>
    rw [← touch_touch, lives_onNode_iff (standing_settleJoin id)]
    exact hintake hn
  | takesOver _ hn => exact hintake hn
  | picksUp _ hn =>
    rw [← touch_touch, lives_onNode_iff (f := (·.settle)) fun _ => rfl]
    exact hintake hn
  | strikesOff =>
    unfold Registry.outtake
    split_ifs
    · exact lives_dismissing_iff
    · exact lives_onNode_iff (standing_settleLeave id)
  | places =>
    rw [lives_touch_iff]
    simp only [standing_placement]
    rfl
  | measures => exact lives_touch_iff

end Reaction

/-! ## Nodes that live -/

/-- All messages but those that tell nodes to leave are on their way to entities that deal with
them, and a node that lives waits for its part of a change. In a `lossy` run it may be missing. -/
structure Session.Steady (lossy : Prop) (s : Session World Payload) : Prop where
  /-- Messages go to entities that deal with them. -/
  addressed : ∀ {sender receiver msg}, .deliver sender receiver msg ∈ s.payloads →
    msg ≠ .nodeLeave → Addressed s.state.registry receiver msg
  /-- Nodes that live wait for their errands. -/
  awaits : ∀ {k}, s.state.registry.Lives k → s.Awaits isTransfer lossy k

/-- Messages that tell nodes to leave are no part of a change from one head to another. -/
theorem transfers_cons_nodeLeave {sender : EntityId} :
    (errands k (.deliver sender id .nodeLeave :: l)).filter isTransfer =
      (errands k l).filter isTransfer := by
  by_cases htrav : Message.nodeLeave.traveller? id = some k
  · rw [errands_cons_self htrav]
    exact List.filter_cons_of_neg (by simp [isTransfer])
  · rw [errands_cons_of_ne htrav]

namespace Session

variable {s s' : Session World Payload} {ok lossy : Prop}

/-- A step that succeeds, or fails in a lossy run, keeps a session steady. -/
theorem Steady.advance (hr : s.state.registry.Orderly)
    (hbroker : s.state.registry.kind s.state.broker = .ok .broker) (hs : s.Steady lossy)
    (h : s.Advance ok s') (hok : ok ∨ lossy) : s'.Steady lossy := by
  have hsame : s'.state.registry = s.state.registry →
      (∀ p ∈ s'.payloads, p ∈ s.payloads) →
      (∀ k, (s'.errands k).filter isTransfer = (s.errands k).filter isTransfer) →
      s'.Steady lossy := by
    intro hregistry hsub herrands
    refine ⟨fun {_ _ _} hp hmsg => ?_, fun {k} hk => ?_⟩
    · rw [hregistry]
      exact hs.addressed (hsub _ hp) hmsg
    · rw [hregistry] at hk
      exact (hs.awaits hk).perm (fun hdue => hregistry ▸ hdue) (herrands k ▸ List.Perm.refl _)
  cases h with
  | rests hrest hregistry =>
    refine hsame hregistry (fun p hp => hrest ▸ hp) fun k => ?_
    unfold errands
    rw [hrest]
  | passes hqueue hrest hregistry =>
    refine hsame hregistry (fun p hp => ?_) fun k => ?_
    · rw [hqueue, ← hrest]
      exact List.mem_cons_of_mem _ hp
    · rw [errands_of_noop hqueue hrest]
  | @fails _ _ msg _ _ hqueue hres hrest hregistry =>
    have hmsg : msg = .nodeLeave := by
      by_contra hmsg
      exact hres (hs.addressed (by rw [hqueue]; exact List.mem_cons_self) hmsg).resolved
    subst hmsg
    refine hsame hregistry (fun p hp => ?_) fun k => ?_
    · rw [hqueue, ← hrest]
      exact List.mem_cons_of_mem _ hp
    · unfold errands
      rw [hqueue, hrest, transfers_cons_nodeLeave]
  | @reacts _ id msg _ _ _ _ _ hqueue hreact hsent hall hrest hregistry =>
    refine ⟨fun {sender receiver msg} hp hmsg => ?_, fun {k} hk => ?_⟩
    · rw [hregistry]
      exact addressed_after hr hbroker hreact hsent hrest hp fun hp =>
        hs.addressed (by rw [hqueue]; exact List.mem_cons_of_mem _ hp) hmsg
    · rw [hregistry] at hk
      -- a node that still lives has not just been told to leave
      have hstay : ¬ (msg = .nodeLeave ∧ id = k) := by
        rintro ⟨rfl, rfl⟩
        by_cases hlive : s.state.registry.Lives id
        · obtain ⟨n, -, -, rfl, -⟩ := hreact.of_nodeLeave hlive
          exact (lives_departing_iff.1 hk).2 rfl
        · cases hreact with
          | ignores | isGone => exact hlive (by rwa [touch_nothing] at hk)
          | departs hn hne => exact hlive ⟨_, hn, hne⟩
      refine (hs.awaits ((hreact.lives_iff hstay).1 hk)).react hok (fun htrav => ?_) hqueue hreact
        hsent hall hrest hregistry
      have hmsg : msg ≠ .nodeLeave := by
        rintro rfl
        exact hstay ⟨rfl, Option.some.inj htrav⟩
      have haddressed := hs.addressed (by rw [hqueue]; exact List.mem_cons_self) hmsg
      exact ⟨haddressed.1, by simpa [isTransfer] using hmsg⟩

end Session

variable {s s' q : Session World Payload} {past : List (Session World Payload)} {lossy : Prop}
  {survives : Fault → Prop}

theorem Builder.Built.steady {admits : Time → Payload → Prop} (hs : Builder.Built admits s)
    (hadmits : ∀ due p, admits due p →
      p = .noop ∨ ∃ sender receiver, p = .deliver sender receiver .nodeLeave) : s.Steady lossy := by
  refine ⟨fun {sender receiver msg} hp hmsg => ?_, fun {k} hk => ?_⟩
  · rcases hs.payloads _ hp with ⟨k, n, hn, he⟩ | ⟨due, hdue⟩
    · cases he
      exact ⟨kind_eq_fogNode_iff.2 ⟨n, hn⟩, nofun⟩
    · rcases hadmits _ _ hdue with he | ⟨_, _, he⟩
      · cases he
      · cases he
        exact absurd rfl hmsg
  · obtain ⟨n, hn, -⟩ := hk
    refine ⟨none, hs.expects hn, .inl (List.filter_eq_nil_iff.2 fun e he => ?_)⟩
    obtain ⟨htrav, sender, hp⟩ := mem_errands_iff.1 he
    rcases hs.payloads _ hp with ⟨k, n, -, he⟩ | ⟨due, hdue⟩
    · obtain ⟨-, -, hmsg⟩ := Payload.deliver.inj he
      rw [hmsg] at htrav
      cases htrav
    · rcases hadmits _ _ hdue with he | ⟨_, _, he⟩
      · cases he
      · obtain ⟨-, -, hmsg⟩ := Payload.deliver.inj he
        simp [isTransfer, hmsg]

/-- While nodes may be told to leave and nothing else is posted, all reachable sessions are steady.
They are lossy if the run may go on after a failure. -/
theorem Reachable.steady (hl : ∀ fault, survives fault → lossy)
    (hs : Reachable (.departures survives) s) : s.Steady lossy := by
  induction hs with
  | built hb h => exact (Builder.built_of_build hb.draft h).steady fun _ _ h => h
  | stepped hs h ih =>
    exact ih.advance hs.orderly hs.broker (Session.advance_of_ok hs.orderly h).1 (.inl trivial)
  | failed hs h hf ih =>
    exact ih.advance hs.orderly hs.broker (Session.advance_of_error hs.orderly h).1
      (.inr (hl _ hf))
  | @posted s due p hs h ih =>
    refine ⟨fun {_ _ _} hp hmsg => ?_, fun {k} hk => (ih.awaits hk).perm (fun hdue => hdue) ?_⟩
    · rcases mem_payloads_post.1 hp with rfl | hp
      · rcases h with he | ⟨_, _, he⟩
        · cases he
        · cases he
          exact absurd rfl hmsg
      · exact ih.addressed hp hmsg
    · have hperm := (errands_post_perm (k := k) s.simulation.queue due p).filter isTransfer
      rcases h with rfl | ⟨_, _, rfl⟩
      · exact hperm
      · rwa [transfers_cons_nodeLeave] at hperm
  | waited _ _ ih => exact ⟨ih.addressed, ih.awaits⟩
  | intervened _ h ih =>
    obtain ⟨t, ht, rfl⟩ := h.slight
    refine ⟨fun {_ _ _} hp hmsg => addressed_touch_iff.2 (ih.addressed hp hmsg), fun {k} hk => ?_⟩
    rw [ht.spares.lives_iff] at hk
    exact (ih.awaits hk).perm (fun hdue => hdue.spared ht.spares) (List.Perm.refl _)

/-! ## Nodes that have gone -/

namespace FogNode.Gone

theorem congr (hn : n.Gone) (hs : m.standing = n.standing) (hp : m.pending = n.pending) : m.Gone :=
  ⟨hs.trans hn.standing, fun h => hn.pending (hp.symm.trans h)⟩

theorem mayList_iff (hn : n.Gone) :
    mayList a n = true ↔ n.pending = some (.departing (some a)) := by
  rw [Registry.mayList_iff, hn.standing]
  refine ⟨fun h => ?_, fun h => .inr (.inr h)⟩
  rcases h with h | ⟨target, h⟩ | h
  · cases h
  · obtain ⟨_, h⟩ := hn.pending h
    cases h
  · exact h

theorem settleLeave (hn : n.Gone) : (Change.settleLeave head n).Gone := by
  refine ⟨(standing_settleLeave head n).trans hn.standing, fun h => ?_⟩
  unfold Change.settleLeave at h
  split at h
  · split_ifs at h
    · cases h
    · exact hn.pending h
  · split_ifs at h
    · cases h
    · exact hn.pending h
  · exact hn.pending h

/-- A head that strikes the node off is the one for which the node waits no longer. -/
theorem pending_settleLeave_iff (hn : n.Gone) :
    (Change.settleLeave head n).pending = some (.departing (some a)) ↔
      n.pending = some (.departing (some a)) ∧ a ≠ head := by
  unfold Change.settleLeave
  cases hp : n.pending with
  | none => simp [hp]
  | some transition =>
    obtain ⟨last, rfl⟩ := hn.pending hp
    have hinj :
        some (Transition.departing (some last)) = some (.departing (some a)) ↔ last = a := by
      simp
    show (if last = head then n.settle else n).pending = _ ↔ _
    by_cases hlast : last = head
    · rw [if_pos hlast, hinj]
      exact iff_of_false nofun fun ⟨ha, hne⟩ => hne (ha ▸ hlast)
    · rw [if_neg hlast, hp, hinj]
      exact (and_iff_left_of_imp fun ha => ha ▸ hlast).symm

/-- A node that has gone is in one of the two last phases. -/
theorem phase (hn : n.Gone) (id : EntityId) : ∃ due, n.Phase id due := by
  cases hp : n.pending with
  | none => exact ⟨none, .rests hp rfl⟩
  | some transition =>
    obtain ⟨last, rfl⟩ := hn.pending hp
    exact ⟨_, .isGone hn.standing hp rfl⟩

end FogNode.Gone

theorem FogNode.Phase.gone (hn : n.Phase k due) (hs : n.standing = .departed) : n.Gone := by
  refine ⟨hs, fun {transition} hp => ?_⟩
  cases hn with
  | rests hp' => simp [hp] at hp'
  | joins hs' | relocates _ hs' | isHandedOver _ hs' => simp [hs] at hs'
  | isDismissed hs' => exact absurd hs hs'
  | isGone _ hp' => exact ⟨_, Option.some.inj (hp.symm.trans hp')⟩

/-- A node that leaves the network waits for its owner, if it has one. -/
theorem gone_departing (k : EntityId) (n : FogNode) : ((departing k n).node k n).Gone := by
  refine ⟨(standing_departing k n).trans (if_pos rfl), fun hp => ?_⟩
  rw [pending_departing] at hp
  obtain ⟨head, -, rfl⟩ := Option.map_eq_some_iff.1 hp
  exact ⟨head, rfl⟩

/-- All that a reaction can do to a node that has gone is to strike it off. -/
theorem Reaction.of_gone (h : Reaction c broker now r id msg out t) (hn : r.fogNode k = .ok n)
    (hgone : n.Gone) : errands k (out.map (·.payload)) = [] ∧
      (r.Spares t k ∧ (msg = .leavePuddle k → r.kind id ≠ .ok .puddleHead) ∨
        msg = .leavePuddle k ∧ ∃ g, r.puddleHead id = .ok g ∧ t = r.outtake id k g n) := by
  by_cases htrav : msg.traveller? id = some k
  · cases h with
    | ignores hkind hne =>
      refine ⟨rfl, .inl ⟨.nothing, fun hmsg hhead => hne ?_⟩⟩
      rw [hkind] at hhead
      rw [hmsg, Except.ok.inj hhead]
      rfl
    | rests | moves | places | measures => cases htrav
    | isGone | misses => exact ⟨rfl, .inl ⟨.nothing, nofun⟩⟩
    | departs hm hlive =>
      cases htrav
      exact absurd (fogNode_inj hm hn ▸ hgone.standing) hlive
    | takesIn _ hm =>
      cases htrav
      obtain rfl := fogNode_inj hm hn
      rw [intake_of_departed hgone.standing]
      refine ⟨rfl, .inl ⟨⟨fun {x} hx => ?_, fun a => lists_touch_iff⟩, nofun⟩⟩
      · obtain rfl := fogNode_inj hx hn
        have hp : x.pending ≠ some (.joining id) := fun hp => nomatch hgone.pending hp
        have hkeep : FogNode.settleJoin id x = x := if_neg hp
        show (if k = k then FogNode.settleJoin id x else x).standing = _ ∧
          (if k = k then FogNode.settleJoin id x else x).pending = _
        rw [if_pos rfl, hkeep]
        exact ⟨rfl, rfl⟩
    | keeps _ hm howned | takesOver _ hm howned | picksUp _ hm howned =>
      cases htrav
      obtain rfl := fogNode_inj hm hn
      rw [hgone.standing] at howned
      cases howned
    | strikesOff hh hm =>
      cases htrav
      obtain rfl := fogNode_inj hm hn
      exact ⟨rfl, .inr ⟨rfl, _, hh, rfl⟩⟩
  · by_cases hmove : msg = .processNodeMove k
    · subst hmove
      cases h with
      | ignores => exact ⟨rfl, .inl ⟨.nothing, nofun⟩⟩
      | places hb hm hp =>
        obtain rfl := fogNode_inj hm hn
        have hs := hgone.standing
        cases hp with
        | ignore => exact ⟨rfl, .inl ⟨.nothing, nofun⟩⟩
        | stay _ hs' | join _ hs' | relocate _ hs' | depart _ hs' => simp [hs] at hs'
    · obtain ⟨ht, hout⟩ := h.spares htrav hmove
      exact ⟨hout, .inl ⟨ht, fun hmsg => absurd (hmsg ▸ rfl) htrav⟩⟩

/-- A node that a head has struck off after it has gone. -/
theorem gone_outtake (hgone : n.Gone) : ((r.outtake head k h n).node k n).Gone :=
  hgone.settleLeave.congr
    ((standing_outtake n (by simp [hgone.standing])).trans (standing_settleLeave head n).symm)
    (pending_outtake n)

/-! ## Consistency -/

namespace Registry

/-- The first contradiction that the checks find, if there is one. -/
def violation? (r : Registry) : Option Violation :=
  match r.checkAll with
  | .error cause => some cause
  | .ok _ => none

theorem checkAll_of_violation? {cause : Violation} (h : r.violation? = some cause) :
    r.checkAll = .error cause := by
  unfold violation? at h
  split at h
  · rename_i found hcheck
    rw [hcheck, Option.some.inj h]
  · cases h

/-- A node that has gone is waited for by the head that lists it. -/
theorem expects_of_gone (hn : r.fogNode k = .ok n) (hgone : n.Gone)
    (hlists : ∀ a, r.Lists a k ↔ n.pending = some (.departing (some a))) :
    ∃ due, r.Expects k due := by
  obtain ⟨due, hphase⟩ := hgone.phase k
  exact ⟨due, n, hn, hphase, fun a => (hlists a).trans hgone.mayList_iff.symm⟩

theorem Expects.after_gone (hk : r.Expects k due) (hgone : ¬ r.Lives k)
    (h : Reaction c broker now r id msg out t) : ∃ due, (r.touch t).Expects k due := by
  have ⟨n, hn, hphase, hlists⟩ := hk
  have hn' := hphase.gone (not_not.1 fun hs => hgone ((lives_iff hn).2 hs))
  rcases (h.of_gone hn hn').2 with ⟨ht, -⟩ | ⟨-, g, hg, rfl⟩
  · exact ⟨due, hk.spared ht⟩
  · refine expects_of_gone (fogNode_touch hn) (gone_outtake hn') fun a => ?_
    rw [lists_outtake_iff hg, hlists, hn'.mayList_iff, pending_outtake,
      hn'.pending_settleLeave_iff, and_iff_left rfl]

/-- Two heads that list a node when it leaves the network are found out. -/
theorem eq_of_checkAll_departing (hw : (r.touch (departing k n)).Wired) (hn : r.fogNode k = .ok n)
    (hcheck : (r.touch (departing k n)).checkAll = .ok ()) (ha : r.Lists a k) (hb : r.Lists b k) :
    a = b := by
  have hlists : ∀ a, (r.touch (departing k n)).Lists a k ↔ r.Lists a k := fun a => lists_touch_iff
  have howners : (r.touch (departing k n)).checkOwners = .ok () := by
    unfold checkAll at hcheck
    simp only [seq_eq_ok_iff] at hcheck
    exact hcheck.2.2.2.1
  -- the only list on which the checks accept a node that has gone is that of the head it waits for
  have hwaits : ∀ {a}, r.Lists a k →
      ((departing k n).node k n).pending = some (.departing (some a)) := by
    intro a ha
    obtain ⟨x, hx, hmay⟩ :=
      ((checkOwners_eq_ok_iff hw.toNumbered).1 howners).1 a k ((hlists a).2 ha)
    rw [fogNode_inj hx (fogNode_touch hn)] at hmay
    exact (gone_departing k n).mayList_iff.1 hmay
  have := (hwaits ha).symm.trans (hwaits hb)
  simpa using this

end Registry

namespace Session

/-- If a node is told next to leave the network, it is on one list at most. -/
def PartsFromOne (s : Session World Payload) : Prop :=
  ∀ time k, s.Hands time k .nodeLeave → s.state.registry.Lives k →
    ∀ a b, s.state.registry.Lists a k → s.state.registry.Lists b k → a = b

/-- What a step makes of the registry if it tells a node that lives to leave. -/
theorem Turn.departs {ok : Prop} {time : Time} (h : s.Turn ok s')
    (hands : s.Hands time k .nodeLeave) (hk : s.state.registry.Lives k) :
    ∃ n, s.state.registry.fogNode k = .ok n ∧
      s'.state.registry = s.state.registry.touch (departing k n) := by
  obtain ⟨sender, rest, hnext⟩ := hands
  cases h with
  | rests hqueue => cases hnext.symm.trans hqueue
  | passes hqueue => cases hnext.symm.trans hqueue
  | fails _ hqueue _ hres =>
    cases hnext.symm.trans hqueue
    obtain ⟨n, hn, -⟩ := hk
    exact absurd ⟨⟨_, kind_eq_fogNode_iff.2 ⟨n, hn⟩⟩, nofun⟩ hres
  | reacts hqueue _ hreact _ _ _ hregistry =>
    cases hnext.symm.trans hqueue
    obtain ⟨n, hn, -, rfl, -⟩ := hreact.of_nodeLeave hk
    exact ⟨n, hn, hregistry⟩

/-- After a step each node waits for an errand, or for none, unless two heads have listed a node
that leaves. -/
theorem Turn.expects {ok : Prop} (hr : s.state.registry.Orderly) (hone : s.PartsFromOne)
    (h : s.Turn ok s') (hs' : s'.Steady lossy)
    (hk : ∃ due, s.state.registry.Expects k due) : ∃ due, s'.state.registry.Expects k due := by
  by_cases hlive' : s'.state.registry.Lives k
  · exact (hs'.awaits hlive').imp fun _ h => h.1
  cases h with
  | rests _ hsame => rwa [hsame]
  | passes _ _ _ hworld => rwa [hworld]
  | fails _ _ _ _ _ hregistry => rwa [hregistry]
  | @reacts now sender id msg rest _ _ _ hqueue _ hreact _ _ _ hregistry =>
    obtain ⟨due, hdue⟩ := hk
    rw [hregistry] at hlive' ⊢
    by_cases hlive : s.state.registry.Lives k
    · obtain ⟨rfl, rfl⟩ : msg = .nodeLeave ∧ id = k := by
        by_contra hstay
        exact hlive' ((hreact.lives_iff hstay).2 hlive)
      obtain ⟨n, hn, hs, rfl, -⟩ := hreact.of_nodeLeave hlive
      obtain ⟨x, hx, hphase, hlists⟩ := hdue
      obtain rfl := fogNode_inj hn hx
      -- the owner is told to strike the node off, so no other head may list it
      refine ⟨_, expects_departing hn fun a => ⟨fun ha => ?_, hr.enrolled.owned⟩⟩
      rcases hphase.owned_or_due hs ((hlists a).1 ha) with ho | ⟨-, new, hne, ho⟩
      · exact (owns_iff hn).2 ho
      · have hnew := hr.enrolled.owned ((owns_iff hn).2 ho)
        exact absurd (hone now id ⟨sender, rest, hqueue⟩ hlive new a hnew ha) hne
    · exact hdue.after_gone hlive hreact

end Session

namespace History

/-- As long as no node has been told to leave while two heads listed it, each node waits for an
errand, or for none. -/
theorem expects_of_departures (hs : History (.departures survives) past s)
    (hone : ∀ q ∈ past, q.PartsFromOne) (hk : s.state.registry.kind k = .ok .fogNode) :
    ∃ due, s.state.registry.Expects k due := by
  have hsteady : ∀ {q : Session World Payload}, Reachable (.departures survives) q →
      q.Steady True := fun hq => hq.steady fun _ _ => trivial
  induction hs with
  | built hb h =>
    obtain ⟨n, hn⟩ := kind_eq_fogNode_iff.1 hk
    have hbuilt := Builder.built_of_build hb.draft h
    have hlive := (lives_iff hn).2 (hbuilt.settled hn).2.1
    exact ((hsteady (.built hb h)).awaits hlive).imp fun _ h => h.1
  | stepped hs h ih =>
    obtain ⟨hfirst, hone⟩ := List.forall_mem_cons.1 hone
    have hturn := (Session.turn_of_ok hs.reachable.orderly h).1
    rw [hturn.advance.kind] at hk
    exact hturn.expects hs.reachable.orderly hfirst (hsteady (hs.reachable.stepped h)) (ih hone hk)
  | failed hs h hf ih =>
    obtain ⟨hfirst, hone⟩ := List.forall_mem_cons.1 hone
    have hturn := (Session.turn_of_error hs.reachable.orderly h).1
    rw [hturn.advance.kind] at hk
    exact hturn.expects hs.reachable.orderly hfirst (hsteady (hs.reachable.failed h hf))
      (ih hone hk)
  | posted _ _ ih => exact ih hone hk
  | waited _ _ ih => exact ih hone hk
  | intervened _ h ih =>
    obtain ⟨t, ht, rfl⟩ := h.slight
    rw [kind_touch] at hk
    exact (ih hone hk).imp fun _ hdue => hdue.spared ht.spares

/-- Nodes may be told to leave and nothing else is posted. Then the records agree after every event
exactly if no node that lives is told to leave while two heads list it. -/
theorem checkAll_iff_of_departures (hs : History (.departures survives) past s) :
    (∀ q ∈ past, (stateOf (q.step World.handle)).state.registry.checkAll = .ok ()) ↔
      ∀ q ∈ past, q.PartsFromOne := by
  constructor
  · intro hcheck q hq time k hands hk a b ha hb
    have hr := (hs.reachable_of_mem hq).orderly
    obtain ⟨-, -, hturn, -⟩ := Session.step_spec hr
    obtain ⟨n, hn, hregistry⟩ := hturn.departs hands hk
    have hw := (hturn.advance.orderly hr).wired
    have hcheck := hcheck q hq
    rw [hregistry] at hw hcheck
    exact eq_of_checkAll_departing hw hn hcheck ha hb
  · intro hone q hq
    obtain ⟨before, hbefore, hsuffix⟩ := hs.exists_of_mem hq
    have hr := hbefore.reachable.orderly
    obtain ⟨-, -, hturn, -⟩ := Session.step_spec hr
    have hsteady := (hbefore.reachable.steady fun _ _ => trivial).advance hr
      hbefore.reachable.broker hturn.advance (.inr trivial)
    refine checkAll_of_expects (hturn.advance.orderly hr) fun {k} hk => ?_
    rw [hturn.advance.kind] at hk
    refine hturn.expects hr (hone q hq) hsteady (hbefore.expects_of_departures (fun p hp => ?_) hk)
    exact hone p (hsuffix.subset (List.mem_cons_of_mem _ hp))

end History

namespace Crossing

/-- The neighbour is told to leave the network. -/
def farewell : Session World Payload :=
  { first with
    simulation := first.simulation.schedule 1 (.deliver 1 neighbour .nodeLeave) }

theorem registry_farewell : farewell.state.registry = first.state.registry := by rw [farewell]

/-- The network when the neighbour has left. -/
def without : Session World Payload := stateOf (farewell.step World.handle)

/-- The neighbour leaves in every regime in which it can be told to. -/
theorem history_of_admits {g : Regime}
    (hg : g.admits first.simulation.clock 1 (.deliver 1 neighbour .nodeLeave)) :
    History g [farewell] without := by
  obtain ⟨b, hb, hbuild⟩ := made_of_start start_eq
  have hstart : History g [] first := .built hb hbuild
  have hfarewell : History g [] farewell := hstart.posted hg
  exact hfarewell.next (by decide +kernel)

theorem history_without : History (.departures fun _ => False) [farewell] without :=
  history_of_admits (.inr ⟨_, _, rfl⟩)

theorem standsAt_neighbour : without.state.registry.StandsAt neighbour .departed :=
  standsAt_of_toOption (by decide +kernel)

end Crossing

/-- The neighbour is told to leave, and the records agree when it has left. -/
theorem History.checkAll_without : Crossing.farewell.Hands 1 Crossing.neighbour .nodeLeave ∧
    Crossing.without.state.registry.checkAll = .ok () := by
  have hnext : Crossing.farewell.entries.head? =
      some (1, .deliver 1 Crossing.neighbour .nodeLeave) := by decide +kernel
  have hone : ∀ q ∈ [Crossing.farewell], q.PartsFromOne := by
    intro q hq time k _ hk a b ha hb
    obtain rfl := List.mem_singleton.1 hq
    rw [Crossing.registry_farewell] at hk ha hb
    have hbuilt : Builder.Built (fun _ _ => True) Crossing.first := by
      obtain ⟨c, hc, hbuild⟩ := Crossing.made_of_start Crossing.start_eq
      exact Builder.built_of_build hc.draft hbuild
    obtain ⟨n, hn, -⟩ := hk
    obtain ⟨-, -, hlists⟩ := hbuilt.settled hn
    exact Standing.owned.inj (((hlists a).1 ha).symm.trans ((hlists b).1 hb))
  refine ⟨Session.hands_of_head? hnext, ?_⟩
  rw [Crossing.without]
  exact (checkAll_iff_of_departures Crossing.history_without).2 hone Crossing.farewell
    List.mem_cons_self

namespace Crossing

/-- The walker is told to leave the network while it is handed over. -/
def torn : Session World Payload :=
  { handover with
    simulation := handover.simulation.schedule 13 (.deliver 1 walker .nodeLeave) }

/-- A node that is told to leave while it is handed over is found on two lists, and a run that
checks its records ends. -/
theorem torn_apart : Reachable (.departures fun _ => False) torn ∧
    Addressed torn.state.registry walker .nodeLeave ∧ torn.Hands 13 walker .nodeLeave ∧
    (stateOf (torn.step World.handle)).state.registry.checkAll =
      .error (.twoHeads walker west east) ∧
    ∃ q, torn.step World.handle = .error (.violation (.twoHeads walker west east)) q := by
  have hreachable : Reachable (.departures fun _ => False) torn :=
    reachable_handover.posted (.inr ⟨_, _, rfl⟩)
  have hwalker : (torn.state.registry.kind walker).toOption = some .fogNode := by decide +kernel
  have hnext : torn.entries.head? = some (13, .deliver 1 walker .nodeLeave) := by decide +kernel
  have hcheck : (stateOf (torn.step World.handle)).state.registry.violation? =
      some (.twoHeads walker west east) := by decide +kernel
  have hfault : torn.fault? = some (.violation (.twoHeads walker west east)) := by decide +kernel
  refine ⟨hreachable, ⟨eq_ok_of_toOption hwalker, fun node hnode => ?_⟩,
    Session.hands_of_head? hnext, checkAll_of_violation? hcheck, Session.step_of_fault? hfault⟩
  cases hnode

end Crossing

end FogNet
