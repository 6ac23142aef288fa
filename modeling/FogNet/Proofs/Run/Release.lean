import FogNet.Proofs.Run.History
import FogNet.Proofs.Run.Quiet

/-!
# Striking nodes off on request

Heads may be told from outside to strike nodes off. Such a message finishes the change of a node
although the message that carries the change may still be on its way, so the broker can start
another change too early, and the message left over is then taken for part of it. As long as no step
fails and no head is told to take a node over while another is to take it in, the lists come right
again as soon as the messages about the node have been delivered
(`History.lists_iff_owns_of_releases`). Otherwise two heads can list a node for good: either because
both have been told, even though no step fails (`Detour.listed_twice`), or because the step in which
the second head takes the node over fails for want of time to send the first one its request to
strike the node off.
-/

namespace FogNet

open Registry

/-- Heads may be told from outside to strike nodes off, and no step fails. -/
def Regime.releases : Regime :=
  ⟨fun _ _ p => p = .noop ∨
    ∃ sender receiver node, p = .deliver sender receiver (.leavePuddle node), fun _ => False⟩

/-- The requests to take a node in among its errands. -/
def joins (node : EntityId) (l : List Errand) : List Errand :=
  l.filter fun e => e.2 = .joinPuddle node

/-- The errands of a node on their way will leave it on the list of its owner only. -/
structure Registry.Tracked (r : Registry) (node : EntityId) (l : List Errand) : Prop where
  /-- A head that lists the node without owning it is about to strike it off. -/
  listed : ∀ {a}, r.Lists a node → r.Owns a node ∨ (a, .leavePuddle node) ∈ l
  /-- A head that is about to take in a node that lives is the only one, and the node is in no
  puddle. -/
  joining : joins node l = [] ∨ ¬ r.Lives node ∨ ∃ a, joins node l = [(a, .joinPuddle node)] ∧
    r.Stands node .unassigned (some (.joining a))

variable {c : Settings} {broker id k a : EntityId} {now : Time} {r : Registry} {msg : Message}
  {out : List Outgoing} {t : Touch} {l l' : List Errand} {n : FogNode} {h : PuddleHead}

theorem joins_append : joins k (l ++ l') = joins k l ++ joins k l' := List.filter_append _ _

namespace Registry.Tracked

theorem perm (h : r.Tracked k l) (hl : l'.Perm l) : r.Tracked k l' := by
  have hjoins : (joins k l').Perm (joins k l) := hl.filter _
  refine ⟨fun ha => (h.listed ha).imp_right hl.mem_iff.2, ?_⟩
  rcases h.joining with hnil | hgone | ⟨a, hone, hs⟩
  · rw [hnil] at hjoins
    exact .inl (List.perm_nil.1 hjoins)
  · exact .inr (.inl hgone)
  · rw [hone] at hjoins
    exact .inr (.inr ⟨a, List.perm_singleton.1 hjoins, hs⟩)

/-- One more request to strike the node off does no harm. -/
theorem leaving (h : r.Tracked k l) : r.Tracked k ((a, .leavePuddle k) :: l) :=
  ⟨fun hb => (h.listed hb).imp_right (List.mem_cons_of_mem _), h.joining⟩

theorem spared (h : r.Tracked k l) (ht : r.Spares t k) : (r.touch t).Tracked k l := by
  refine ⟨fun {a} ha => ?_, ?_⟩
  · rw [ht.owns_iff]
    exact h.listed ((ht.lists a).1 ha)
  · rw [ht.lives_iff]
    exact h.joining.imp_right (Or.imp_right fun ⟨a, hone, hs⟩ =>
      ⟨a, hone, (stands_touch_iff ht.node).2 hs⟩)

/-! ## Reactions to the errands of a node -/

/-- Nobody is about to take in a node that has an owner or is in the middle of no change. -/
theorem joins_eq_nil (h : r.Tracked k l) (hn : r.fogNode k = .ok n) (hlive : n.standing ≠ .departed)
    (hsettled : n.standing ≠ .unassigned ∨ n.pending = none) : joins k l = [] := by
  rcases h.joining with hnil | hgone | ⟨a, -, hs⟩
  · exact hnil
  · exact absurd ((lives_iff hn).2 hlive) hgone
  · rw [stands_iff hn] at hs
    rw [hs.1, hs.2] at hsettled
    simp at hsettled

/-- The broker decides on a node. -/
theorem placed {p : Placement} (h : r.Tracked k l) (hn : r.fogNode k = .ok n)
    (hp : r.Decision n p) : (r.touch (p.touch id k)).Tracked k
      (errands k ((p.orders c id k).map (·.payload)) ++ l) := by
  have hlists : ∀ b, (r.touch (p.touch id k)).Lists b k ↔ r.Lists b k := fun b => by
    cases p <;> exact lists_touch_iff
  refine ⟨fun {b} hb => ?_, ?_⟩
  · refine (h.listed ((hlists b).1 hb)).imp (fun ho => ?_) (List.mem_append_right _)
    rw [owns_iff hn] at ho
    exact (owns_iff (fogNode_touch hn)).2 ((standing_placement p n).trans ho)
  · rw [joins_append]
    cases hp with
    | ignore | stay => exact (h.spared .nothing).joining
    | @join target _ hp hs =>
      rw [h.joins_eq_nil hn (by simp [hs]) (.inr hp), List.append_nil]
      have hnode : ((Placement.join target).touch id k).node k n = n.start (.joining target) :=
        if_pos rfl
      refine .inr (.inr ⟨target, ?_, (stands_iff (fogNode_touch hn)).2 ?_⟩)
      · simp [errands, Placement.orders, Outgoing.payload, Payload.errand?, Message.traveller?,
          joins]
      · rw [hnode]
        exact ⟨hs, rfl⟩
    | relocate hp hs =>
      rw [h.joins_eq_nil hn (by simp [hs]) (.inr hp)]
      simp [errands, Placement.orders, Outgoing.payload, Payload.errand?, Message.traveller?, joins]
    | depart hp hs =>
      rw [h.joins_eq_nil hn hs (.inr hp)]
      simp [errands, Placement.orders, Outgoing.payload, Payload.errand?, Message.traveller?, joins]

/-- A head takes in a node that asked to join. -/
theorem takenIn (h : r.Tracked k ((id, .joinPuddle k) :: l)) {g : PuddleHead}
    (hh : r.puddleHead id = .ok g) (hn : r.fogNode k = .ok n) :
    (r.touch ((r.intake id k g n).andThen (.onNode k (FogNode.settleJoin id)))).Tracked k l := by
  have hcons : joins k ((id, .joinPuddle k) :: l) = (id, .joinPuddle k) :: joins k l :=
    List.filter_cons_of_pos (by simp)
  have hleave : ∀ {a}, (a, Message.leavePuddle k) ∈ (id, Message.joinPuddle k) :: l →
      (a, .leavePuddle k) ∈ l := fun ha => (List.mem_cons.1 ha).resolve_left nofun
  rcases h.joining with hnil | hgone | ⟨target, hone, hs⟩
  · rw [hcons] at hnil
    cases hnil
  -- a node that has gone is not taken in
  · have hdeparted : n.standing = .departed := not_not.1 fun hc => hgone ((lives_iff hn).2 hc)
    rw [intake_of_departed hdeparted]
    have hlives : ¬ (r.touch (Touch.nothing.andThen (.onNode k (FogNode.settleJoin id)))).Lives k :=
      fun hc => (lives_iff (fogNode_touch hn)).1 hc (by
        show (if k = k then _ else _ : FogNode).standing = _
        rw [if_pos rfl, standing_settleJoin]
        exact hdeparted)
    refine ⟨fun {a} ha => ?_, .inr (.inl hlives)⟩
    rw [lists_andThen_onNode_iff, touch_nothing] at ha
    rcases h.listed ha with ho | ha
    · exact absurd ho.lives hgone
    · exact .inr (hleave ha)
  · rw [hcons] at hone
    obtain ⟨-, hrest⟩ := List.cons.inj hone
    refine ⟨fun {a} ha => ?_, .inl hrest⟩
    rw [lists_andThen_onNode_iff] at ha
    rw [owns_andThen_onNode_iff (standing_settleJoin id)]
    rcases lists_intake hh hn ha with ha | ho
    · rcases h.listed ha with ho | ha
      · rw [owns_iff hn, ((stands_iff hn).1 hs).1] at ho
        cases ho
      · exact .inr (hleave ha)
    · exact .inl ho

/-- A message that nobody deals with is no loss unless a head that lists the node has ignored
it. -/
theorem delivered (h : r.Tracked k ((id, msg) :: l))
    (hlist : msg = .leavePuddle k → ¬ r.Lists id k) : r.Tracked k l := by
  refine ⟨fun {a} ha => (h.listed ha).imp_right fun hin => ?_, ?_⟩
  · rcases List.mem_cons.1 hin with he | hin
    · cases he
      exact absurd ha (hlist rfl)
    · exact hin
  · by_cases hmsg : msg = .joinPuddle k
    · subst hmsg
      have hcons : joins k ((id, .joinPuddle k) :: l) = (id, .joinPuddle k) :: joins k l :=
        List.filter_cons_of_pos (by simp)
      rcases h.joining with hnil | hgone | ⟨target, hone, -⟩
      · rw [hcons] at hnil
        cases hnil
      · exact .inr (.inl hgone)
      · rw [hcons] at hone
        exact .inl (List.cons.inj hone).2
    · have hcons : joins k ((id, msg) :: l) = joins k l :=
        List.filter_cons_of_neg (by simpa using hmsg)
      rw [← hcons]
      exact h.joining

theorem ignored (h : r.Tracked k ((id, msg) :: l)) (hlist : msg = .leavePuddle k → ¬ r.Lists id k) :
    (r.touch .nothing).Tracked k (errands k (([] : List Outgoing).map (·.payload)) ++ l) := by
  rw [touch_nothing]
  exact h.delivered hlist

/-- A head is to take a node over while no other is to take it in. -/
theorem takenOver (h : r.Tracked k ((id, .relocate k) :: l)) (hnone : joins k l = [])
    (hreact : Reaction c broker now r id (.relocate k) out t) :
    (r.touch t).Tracked k (errands k (out.map (·.payload)) ++ l) := by
  have hleave : ∀ {a}, (a, Message.leavePuddle k) ∈ (id, Message.relocate k) :: l →
      (a, .leavePuddle k) ∈ l := fun ha => (List.mem_cons.1 ha).resolve_left nofun
  have hsettle : ∀ n : FogNode, n.settle.standing = n.standing := fun _ => rfl
  cases hreact with
  | ignores | misses => exact h.ignored nofun
  | keeps =>
    refine ⟨fun {a} ha => ?_, .inl hnone⟩
    have hlists : (r.touch (.onNode k (·.settle))).Lists a k ↔ r.Lists a k := lists_touch_iff
    exact (h.listed (hlists.1 ha)).imp (owns_onNode_iff hsettle).2 hleave
  | @takesOver g _ owner n hh hn howned hne =>
    have hsent : errands k ([⟨c.handoffDelay, id, owner, .leavePuddle k⟩].map
        (Outgoing.payload ·)) = [(owner, .leavePuddle k)] := by
      simp [errands, Outgoing.payload, Payload.errand?, Message.traveller?]
    rw [hsent]
    refine ⟨fun {a} ha => ?_, .inl ?_⟩
    · rcases lists_intake hh hn ha with ha | ho
      · rcases h.listed ha with ho | ha
        · rw [owns_iff hn, howned] at ho
          obtain rfl := Standing.owned.inj ho
          exact .inr List.mem_cons_self
        · exact .inr (List.mem_cons_of_mem _ (hleave ha))
      · exact .inl ho
    · rw [joins_append, hnone]
      simp [joins]
  | @picksUp g _ n hh hn hfree =>
    refine ⟨fun {a} ha => ?_, .inl hnone⟩
    rw [lists_andThen_onNode_iff] at ha
    rw [owns_andThen_onNode_iff hsettle]
    rcases lists_intake hh hn ha with ha | ho
    · rcases h.listed ha with ho | ha
      · rw [owns_iff hn, hfree] at ho
        cases ho
      · exact .inr (hleave ha)
    · exact .inl ho

/-- A head is to strike a node off. -/
theorem struckOff (h : r.Tracked k ((id, .leavePuddle k) :: l)) (hr : r.Orderly)
    (hreact : Reaction c broker now r id (.leavePuddle k) out t) :
    (r.touch t).Tracked k (errands k (out.map (·.payload)) ++ l) := by
  cases hreact with
  | ignores hkind hne =>
    refine h.ignored fun _ ⟨g, hg, _⟩ => hne ?_
    rw [kind_eq_puddleHead_iff.2 ⟨g, hg⟩] at hkind
    exact (Except.ok.inj hkind).symm
  | @strikesOff g _ n hh hn =>
    refine ⟨fun {a} ha => ?_, ?_⟩
    · obtain ⟨ha, hother⟩ := (lists_outtake_iff hh).1 ha
      refine (h.listed ha).imp (fun ho => ?_) fun ha => ?_
      · exact (owns_outtake_iff hr.enrolled hh).2 ⟨ho, hother⟩
      · refine (List.mem_cons.1 ha).resolve_left fun he => hother ?_
        exact ⟨congrArg Prod.fst he, rfl⟩
    · have hcons : joins k ((id, .leavePuddle k) :: l) = joins k l :=
        List.filter_cons_of_neg (by simp)
      have hjoining := h.joining
      rw [hcons] at hjoining
      refine hjoining.imp_right (Or.imp (fun hgone hlives => hgone ?_) fun ⟨a, hone, hs⟩ => ?_)
      · by_contra hgone
        have hdeparted : n.standing = .departed := not_not.1 fun hc => hgone ((lives_iff hn).2 hc)
        refine (lives_iff (fogNode_touch hn)).1 hlives ?_
        rw [standing_outtake n (by simp [hdeparted]), hdeparted]
      · obtain ⟨hs, hp⟩ := (stands_iff hn).1 hs
        refine ⟨a, hone, (stands_iff (fogNode_touch hn)).2 ⟨?_, ?_⟩⟩
        · rw [standing_outtake n (by simp [hs]), hs]
        · rw [pending_outtake]
          unfold Change.settleLeave
          rw [hp]
          exact hp

/-- A node is to leave the network. -/
theorem departed (h : r.Tracked k ((k, .nodeLeave) :: l)) (hk : r.kind k = .ok .fogNode)
    (hreact : Reaction c broker now r k .nodeLeave out t) :
    (r.touch t).Tracked k (errands k (out.map (·.payload)) ++ l) := by
  cases hreact with
  | ignores hkind hne =>
    rw [hk] at hkind
    exact absurd (Except.ok.inj hkind).symm hne
  | isGone => exact h.ignored nofun
  | @departs n hn hlive =>
    rw [errands_farewell]
    refine ⟨fun {a} ha => .inr ?_, .inr (.inl fun hlives => ?_)⟩
    · have hlists : (r.touch (departing k n)).Lists a k ↔ r.Lists a k := lists_touch_iff
      rcases h.listed (hlists.1 ha) with ho | ha
      · rw [owns_iff_owner? hn] at ho
        rw [ho]
        exact List.mem_append_left _ List.mem_cons_self
      · exact List.mem_append_right _ ((List.mem_cons.1 ha).resolve_left nofun)
    · exact ((lives_departing_iff).1 hlives).2 rfl

/-- Every reaction keeps the errands of a node in order, unless a head is told to take the node over
while another is to take it in. -/
theorem react {sender : EntityId} {rest : List Payload} (hr : r.Orderly)
    (hk : r.kind k = .ok .fogNode) (h : r.Tracked k (errands k (.deliver sender id msg :: rest)))
    (horder : msg = .relocate k → joins k (errands k rest) = [])
    (hreact : Reaction c broker now r id msg out t) :
    (r.touch t).Tracked k (errands k (out.map (·.payload)) ++ errands k rest) := by
  by_cases htrav : msg.traveller? id = some k
  · rw [errands_cons_self htrav] at h
    cases msg with
    | joinPuddle node =>
      cases htrav
      cases hreact with
      | ignores => exact h.ignored nofun
      | takesIn hh hn => exact h.takenIn hh hn
    | relocate node =>
      cases htrav
      exact h.takenOver (horder rfl) hreact
    | leavePuddle node =>
      cases htrav
      exact h.struckOff hr hreact
    | nodeLeave =>
      cases htrav
      exact h.departed hk hreact
    | updateLocation | processNodeMove _ | updateLatency => cases htrav
  · rw [errands_cons_of_ne htrav] at h
    by_cases hmove : msg = .processNodeMove k
    · subst hmove
      cases hreact with
      | ignores => exact h.spared .nothing
      | places hb hn hp => exact h.placed hn hp
    · obtain ⟨ht, hout⟩ := hreact.spares htrav hmove
      rw [hout]
      exact h.spared ht

end Registry.Tracked

/-! ## Whole runs -/

variable {past : List (Session World Payload)} {s s' : Session World Payload}

/-- No head has been told to take a node over while another was to take it in. -/
def OneAtATime (past : List (Session World Payload)) (node : EntityId) : Prop :=
  ∀ q ∈ past, ∀ time target, q.Hands time target (.relocate node) →
    ∀ a, (a, .joinPuddle node) ∉ q.errands node

theorem Session.joins_eq_nil (h : ∀ a, (a, .joinPuddle k) ∉ s.errands k) :
    joins k (s.errands k) = [] := by
  refine List.filter_eq_nil_iff.2 fun e he hjoin => h e.1 ?_
  rw [← of_decide_eq_true hjoin]
  exact he

/-- A successful turn keeps the errands of a node in order. -/
theorem Session.Turn.tracked (hr : s.state.registry.Orderly)
    (hk : s.state.registry.kind k = .ok .fogNode)
    (horder : ∀ time target, s.Hands time target (.relocate k) →
      ∀ a, (a, .joinPuddle k) ∉ s.errands k)
    (hs : s.state.registry.Tracked k (s.errands k)) (h : s.Turn True s') :
    s'.state.registry.Tracked k (s'.errands k) := by
  cases h with
  | rests _ hsame => rwa [hsame]
  | passes hqueue _ hrest hworld =>
    rwa [hworld, errands_of_noop (payloads_of_entries hqueue) (by rw [payloads_eq, hrest])]
  | fails hok => exact absurd trivial hok
  | @reacts now sender id msg rest out sent t hqueue _ hreact _ hall hrest hregistry =>
    obtain rfl := hall trivial
    have hpayloads := payloads_of_entries hqueue
    have herrands : s.errands k = FogNet.errands k _ := congrArg (FogNet.errands k) hpayloads
    rw [hregistry]
    refine Registry.Tracked.perm (Registry.Tracked.react hr hk (herrands ▸ hs) ?_ hreact)
      (errands_perm (payloads_perm_of_entries hrest))
    -- the order of the messages matters only when a head is told to take the node over
    rintro rfl
    have hnone := joins_eq_nil (horder now id ⟨sender, rest, hqueue⟩)
    have htrav : (Message.relocate k).traveller? id = some k := rfl
    have hcons : joins k ((id, .relocate k) :: FogNet.errands k (rest.map Prod.snd)) =
        joins k (FogNet.errands k (rest.map Prod.snd)) := List.filter_cons_of_neg (by simp)
    rwa [herrands, errands_cons_self htrav, hcons] at hnone

theorem Builder.Built.tracked (hs : Builder.Built (Regime.releases.admits 0) s)
    (hk : s.state.registry.kind k = .ok .fogNode) :
    s.state.registry.Tracked k (s.errands k) := by
  obtain ⟨n, hn⟩ := kind_eq_fogNode_iff.1 hk
  obtain ⟨-, -, hlists⟩ := hs.settled hn
  refine ⟨fun {a} ha => .inl ((owns_iff hn).2 ((hlists a).1 ha)), .inl ?_⟩
  refine Session.joins_eq_nil fun a ha => ?_
  obtain ⟨-, sender, hp⟩ := mem_errands_iff.1 ha
  rcases hs.payloads _ hp with ⟨_, _, _, he⟩ | ⟨_, he | ⟨_, _, _, he⟩⟩ <;> cases he

/-- The errands of a node are in order in every run in which no head is told to take the node over
while another is to take it in. -/
theorem History.tracked (hs : History .releases past s)
    (hk : s.state.registry.kind k = .ok .fogNode) (horder : OneAtATime past k) :
    s.state.registry.Tracked k (s.errands k) := by
  induction hs with
  | built hb h => exact (Builder.built_of_build hb.draft h).tracked hk
  | stepped hs h ih =>
    obtain ⟨hturn, -, -⟩ := Session.turn_of_ok hs.reachable.orderly h
    rw [hturn.advance.kind] at hk
    obtain ⟨hfirst, horder⟩ := List.forall_mem_cons.1 horder
    exact hturn.tracked hs.reachable.orderly hk hfirst (ih hk horder)
  | failed _ _ hf => exact hf.elim
  | @posted past s due p hs h ih =>
    refine Registry.Tracked.perm ?_ (errands_post_perm s.simulation.queue due p)
    have ih := ih hk horder
    rcases h with rfl | ⟨sender, receiver, node, rfl⟩
    · exact ih
    · by_cases hnode : (Message.leavePuddle node).traveller? receiver = some k
      · rw [errands_cons_self hnode]
        cases hnode
        exact ih.leaving
      · rw [errands_cons_of_ne hnode]
        exact ih
  | waited _ _ ih => exact ih hk horder
  | intervened hs h ih =>
    obtain ⟨t, ht, rfl⟩ := h.slight
    rw [kind_touch] at hk
    exact (ih hk horder).spared ht.spares

/-- Heads may be told from outside to strike nodes off. If no step has failed, and no head was told
to take a node over while another was to take it in, the node is listed by its owner and by nobody
else as soon as no message about its membership is on its way. -/
theorem History.lists_iff_owns_of_releases (hs : History .releases past s)
    (hk : s.state.registry.kind k = .ok .fogNode) (horder : OneAtATime past k)
    (hidle : s.errands k = []) :
    (∀ a, s.state.registry.Lists a k ↔ s.state.registry.Owns a k) ∧
      ∀ a b, s.state.registry.Lists a k → s.state.registry.Lists b k → a = b := by
  have htracked := hs.tracked hk horder
  rw [hidle] at htracked
  have hiff : ∀ a, s.state.registry.Lists a k ↔ s.state.registry.Owns a k := fun a =>
    ⟨fun ha => (htracked.listed ha).resolve_right List.not_mem_nil,
      hs.reachable.orderly.enrolled.owned⟩
  obtain ⟨n, hn⟩ := kind_eq_fogNode_iff.1 hk
  refine ⟨hiff, fun a b ha hb => ?_⟩
  rw [hiff, owns_iff hn] at ha hb
  exact Standing.owned.inj (ha.symm.trans hb)

namespace Crossing

/-- The west is told from outside to strike the neighbour off. -/
def asked : Session World Payload :=
  { first with
    simulation := first.simulation.schedule 1 (.deliver 1 west (.leavePuddle neighbour)) }

/-- The network when the west has struck the neighbour off. -/
def struck : Session World Payload := stateOf (asked.step World.handle)

theorem history_struck : History .releases [asked] struck := by
  obtain ⟨b, hb, hbuild⟩ := made_of_start start_eq
  have hstart : History .releases [] first := .built hb hbuild
  have hasked : History .releases [] asked := hstart.posted (.inr ⟨_, _, _, rfl⟩)
  exact hasked.next (by decide +kernel)

end Crossing

/-- Once the west has struck the neighbour off as it was told from outside, no message about the
neighbour is on its way, and nobody lists it. -/
theorem History.unlisted_neighbour : Crossing.struck.errands Crossing.neighbour = [] ∧
    ∀ a, ¬ Crossing.struck.state.registry.Lists a Crossing.neighbour := by
  have hstanding : (Crossing.struck.state.registry.fogNode Crossing.neighbour).toOption.map
      (·.standing) = some .unassigned := by decide +kernel
  have hnext : Crossing.asked.entries.head? =
      some (1, .deliver 1 Crossing.west (.leavePuddle Crossing.neighbour)) := by decide +kernel
  have hidle : Crossing.struck.errands Crossing.neighbour = [] := by decide +kernel
  have horder : OneAtATime [Crossing.asked] Crossing.neighbour := by
    intro q hq time target hh
    obtain rfl := List.mem_singleton.1 hq
    obtain ⟨sender, rest, hqueue⟩ := hh
    rw [hqueue] at hnext
    cases hnext
  obtain ⟨n, hn, hfree⟩ := Option.map_eq_some_iff.1 hstanding
  have hn : Crossing.struck.state.registry.fogNode Crossing.neighbour = .ok n :=
    eq_ok_of_toOption hn
  obtain ⟨hlists, -⟩ := lists_iff_owns_of_releases Crossing.history_struck
    (kind_eq_fogNode_iff.2 ⟨n, hn⟩) horder hidle
  refine ⟨hidle, fun a ha => ?_⟩
  rw [hlists, owns_iff hn, hfree] at ha
  cases ha

/-! ## A node that stays on two lists -/

/-- Whether a payload is about nobody's membership. -/
def Payload.isRoutine : Payload → Bool
  | noop => true
  | deliver _ receiver msg => (msg.traveller? receiver).isNone

theorem errands_eq_nil_of_routine {l : List Payload} (h : ∀ p ∈ l, p.isRoutine = true) :
    errands k l = [] := by
  refine List.filterMap_eq_nil_iff.2 fun p hp => ?_
  cases p with
  | noop => rfl
  | deliver sender receiver msg =>
    have hnone : msg.traveller? receiver = none := Option.isNone_iff_eq_none.1 (h _ hp)
    exact if_neg (by simp [hnone])

namespace Detour

/-- Nodes report their movement at every tick. -/
def settings : Settings := { Settings.standard with locationUpdateInterval := 1 }

/-- The head of the western part. -/
def west : EntityId := 2

/-- The head of the far east. -/
def far : EntityId := 3

/-- The head of the whole east, asked only where the far one does not reach. -/
def east : EntityId := 4

/-- A node that walks east. -/
def walker : EntityId := 5

/-- The one message that is posted from outside. -/
def order : Payload := .deliver 1 west (.leavePuddle walker)

/-- The three heads, the node and the message, which is due when the west has just been told to hand
the node over to the east. -/
def draft (b : Builder) : Builder :=
  let b := stateOf (Builder.puddleHead "west" 0 (.rectangle 0 0 6 10) ⟨3, 5⟩ b)
  let b := stateOf (Builder.puddleHead "far" 0 (.rectangle 7 0 13 10) ⟨13.5, 5⟩ b)
  let b := stateOf (Builder.puddleHead "east" 0 (.rectangle 6 0 14 10) ⟨13, 5⟩ b)
  let b := stateOf (Builder.fogNode
    ⟨"walker", 0, ⟨4.5, 5⟩, ⟨0, 0, 20, 10⟩, .velocity ⟨1, 0⟩, .none⟩ b)
  b.schedule 3 1 west (.leavePuddle walker)

/-- Nothing but the one message is posted, and no step fails. -/
def regime : Regime := ⟨fun _ _ p => p = order, fun _ => False⟩

/-- The network when it has been run up to instant four. -/
def run : Option (Session World Payload) :=
  match Builder.start settings with
  | .error _ => none
  | .ok b =>
    match (draft b).build with
    | .error _ => none
    | .ok s =>
      match s.runUntil World.handle 4 32 with
      | some (.ok _ s) => some s
      | _ => none

theorem reachable_of_run (h : run = some s) : Reachable regime s := by
  unfold run at h
  cases hstart : Builder.start settings with
  | error fault =>
    rw [hstart] at h
    cases h
  | ok b =>
    rw [hstart] at h
    have hmade : (draft b).Made (regime.admits 0) :=
      ((((Builder.Made.start hstart).puddleHead _ _ _ _).puddleHead _ _ _ _).puddleHead
        _ _ _ _).fogNode _ |>.schedule rfl
    simp only at h
    cases hbuild : (draft b).build with
    | error fault =>
      rw [hbuild] at h
      cases h
    | ok first =>
      rw [hbuild] at h
      simp only at h
      split at h
      · rename_i hrun
        obtain rfl := Option.some.inj h
        exact Session.through_runUntil (.built hmade hbuild) hrun
      · cases h

theorem isSome_run : run.isSome = true := by decide +kernel

/-- The network at instant four. -/
def stray : Session World Payload := run.get isSome_run

/-- One message from outside to the west to strike the walker off leaves the walker on two lists,
with no message about anybody's membership on its way: the east has taken the walker over although
its change was finished, after the broker had sent it to the far east. -/
theorem listed_twice : Reachable regime stray ∧
    Addressed stray.state.registry west (.leavePuddle walker) ∧ (∀ k, stray.errands k = []) ∧
    stray.state.registry.Lists far walker ∧ stray.state.registry.Lists east walker := by
  have hreachable : Reachable regime stray := reachable_of_run (Option.some_get isSome_run).symm
  have hfar : stray.state.registry.Lists far walker := listed_iff.1 (by decide +kernel)
  have heast : stray.state.registry.Lists east walker := listed_iff.1 (by decide +kernel)
  have hwest : (stray.state.registry.kind west).toOption = some .puddleHead := by decide +kernel
  have hidle : ∀ p ∈ stray.payloads, p.isRoutine = true := by decide +kernel
  refine ⟨hreachable, ⟨eq_ok_of_toOption hwest, fun node hnode => ?_⟩, fun k => ?_, hfar, heast⟩
  · cases hnode
    exact hreachable.orderly.enrolled.known hfar
  · exact errands_eq_nil_of_routine hidle

end Detour

end FogNet
