import FogNet.Proofs.Run.Departure

/-!
# Nodes that have left are forgotten

A node that has left the network may still be on the lists of its owner and, if it was handed over,
of its former one. Each of them has been told to strike it off, and so has the head for which the
node waits (`Registry.Parting`), whatever other messages about the node are left over. Once these
have been delivered, nothing in the records is about the node
(`Reachable.forgotten_of_departures`).
-/

namespace FogNet

open Registry

namespace Registry

/-- The errands of a node that has gone, on their way, will have it struck off everywhere. -/
structure Parting (r : Registry) (node : EntityId) (l : List Errand) : Prop where
  /-- The head for which it waits is about to strike it off. -/
  gone : ∃ n, r.fogNode node = .ok n ∧ n.Gone ∧
    ∀ head, n.pending = some (.departing (some head)) → (head, .leavePuddle node) ∈ l
  /-- So are the heads that list it. -/
  listed : ∀ {a}, r.Lists a node → (a, .leavePuddle node) ∈ l

/-- Nothing in the records is about a node. -/
structure Forgotten (r : Registry) (node : EntityId) : Prop where
  /-- No head lists it. -/
  members : ∀ {a h}, r.puddleHead a = .ok h → node ∉ h.members
  /-- No head knows what it offers. -/
  characteristics : ∀ {a h}, r.puddleHead a = .ok h → h.memberCharacteristics.get? node = none
  /-- It is in no copy of a list. -/
  copies : ∀ {a h child l}, r.puddleHead a = .ok h → h.childPuddles.get? child = some l → node ∉ l
  /-- No head has modules running on it. -/
  services : ∀ {a h}, r.puddleHead a = .ok h → h.runningServices.get? node = none
  /-- It is no sibling of a head. -/
  siblings : ∀ {a h}, r.puddleHead a = .ok h → node ∉ h.buddies
  /-- It is nobody's buddy. -/
  buddies : ∀ {k n}, r.fogNode k = .ok n → node ∉ n.buddies
  /-- It has no buddies. -/
  alone : ∀ {n k}, r.fogNode node = .ok n → k ∉ n.buddies
  /-- It waits for nothing. -/
  settled : ∀ {n}, r.fogNode node = .ok n → n.pending = none

variable {c : Settings} {broker id k : EntityId} {now : Time} {r : Registry} {msg : Message}
  {out : List Outgoing} {t : Touch} {n : FogNode} {g : PuddleHead} {due : Option Errand}
  {l l' : List Errand}

namespace Parting

theorem mono (h : r.Parting k l) (hl : ∀ a, (a, .leavePuddle k) ∈ l → (a, .leavePuddle k) ∈ l') :
    r.Parting k l' := by
  obtain ⟨n, hn, hgone, hwaits⟩ := h.gone
  exact ⟨⟨n, hn, hgone, fun head hp => hl head (hwaits head hp)⟩, fun ha => hl _ (h.listed ha)⟩

theorem spared (h : r.Parting k l) (ht : r.Spares t k) : (r.touch t).Parting k l := by
  obtain ⟨n, hn, hgone, hwaits⟩ := h.gone
  obtain ⟨hs, hp⟩ := ht.node hn
  exact ⟨⟨_, fogNode_touch hn, hgone.congr hs hp, fun head hh => hwaits head (hp.symm.trans hh)⟩,
    fun ha => h.listed ((ht.lists _).1 ha)⟩

/-- A head that has been told to strike the node off does so. -/
theorem struckOff (h : r.Parting k ((id, .leavePuddle k) :: l)) (hg : r.puddleHead id = .ok g)
    (hn : r.fogNode k = .ok n) : (r.touch (r.outtake id k g n)).Parting k l := by
  obtain ⟨m, hm, hgone, hwaits⟩ := h.gone
  obtain rfl := fogNode_inj hn hm
  have hothers : ∀ {a}, a ≠ id → (a, .leavePuddle k) ∈ (id, Message.leavePuddle k) :: l →
      (a, .leavePuddle k) ∈ l := fun hne ha =>
    (List.mem_cons.1 ha).resolve_left fun he => hne (congrArg Prod.fst he)
  refine ⟨⟨_, fogNode_touch hn, gone_outtake hgone, fun head hp => ?_⟩, fun {a} ha => ?_⟩
  · rw [pending_outtake, hgone.pending_settleLeave_iff] at hp
    exact hothers hp.2 (hwaits head hp.1)
  · obtain ⟨ha, hne⟩ := (lists_outtake_iff hg).1 ha
    exact hothers (fun hc => hne ⟨hc, rfl⟩) (h.listed ha)

/-- Every reaction leaves enough messages on their way. -/
theorem react {sender : EntityId} {rest : List Payload}
    (h : r.Parting k (errands k (.deliver sender id msg :: rest)))
    (hhead : msg = .leavePuddle k → r.kind id = .ok .puddleHead)
    (hreact : Reaction c broker now r id msg out t) :
    (r.touch t).Parting k (errands k (out.map (·.payload)) ++ errands k rest) := by
  obtain ⟨n, hn, hgone, -⟩ := h.gone
  obtain ⟨hout, hcourse⟩ := hreact.of_gone hn hgone
  rw [hout, List.nil_append]
  rcases hcourse with ⟨ht, hignored⟩ | ⟨rfl, g, hg, rfl⟩
  · refine (h.spared ht).mono fun a ha => ?_
    by_cases htrav : msg.traveller? id = some k
    · rw [errands_cons_self htrav] at ha
      refine (List.mem_cons.1 ha).resolve_left fun he => ?_
      have hmsg : msg = .leavePuddle k := (congrArg Prod.snd he).symm
      exact hignored hmsg (hhead hmsg)
    · rwa [errands_cons_of_ne htrav] at ha
  · have htrav : (Message.leavePuddle k).traveller? id = some k := rfl
    rw [errands_cons_self htrav] at h
    exact h.struckOff hg hn

/-- A node that leaves the network tells its owner, and a former owner has been told before. -/
theorem departing (hn : r.fogNode k = .ok n) (hlive : n.standing ≠ .departed)
    (hphase : n.Phase k due) (hlists : ∀ a, r.Lists a k ↔ mayList a n = true)
    (hdue : ∀ a, due = some (a, .leavePuddle k) → (a, .leavePuddle k) ∈ l) :
    (r.touch (Registry.departing k n)).Parting k
      (errands k ((n.farewell c k).map (·.payload)) ++ l) := by
  have htold : ∀ {a}, n.owner? = some a →
      (a, .leavePuddle k) ∈ errands k ((n.farewell c k).map (·.payload)) ++ l := fun ho => by
    rw [errands_farewell, ho]
    exact List.mem_append_left _ List.mem_cons_self
  refine ⟨⟨_, fogNode_touch hn, gone_departing k n, fun head hp => ?_⟩, fun {a} ha => ?_⟩
  · rw [pending_departing] at hp
    obtain ⟨owner, ho, he⟩ := Option.map_eq_some_iff.1 hp
    obtain rfl : owner = head := by simpa using he
    exact htold ho
  · have hsame : (r.touch (Registry.departing k n)).Lists a k ↔ r.Lists a k := lists_touch_iff
    -- a head that lists the node without owning it has been told to strike it off
    rcases hphase.owned_or_due hlive ((hlists a).1 (hsame.1 ha)) with ho | ⟨hleave, -⟩
    · exact htold ((owns_iff_owner? hn).1 ((owns_iff hn).2 ho))
    · exact List.mem_append_right _ (hdue a hleave)

/-- When no head is about to strike the node off any longer, it is forgotten. -/
theorem forgotten (h : r.Parting k l) (hr : r.Orderly) (hp : r.Pruned)
    (hidle : ∀ a, (a, .leavePuddle k) ∉ l) : r.Forgotten k := by
  obtain ⟨n, hn, hgone, hwaits⟩ := h.gone
  have hunlisted : ∀ {a g}, r.puddleHead a = .ok g → k ∉ g.members := fun hg hk =>
    hidle _ (h.listed ⟨_, hg, hk⟩)
  have halone : ∀ {b}, ¬ r.Befriends k b := fun hb =>
    (lives_iff hn).1 (hr.befriended.living hb) hgone.standing
  refine ⟨hunlisted, fun hg => hr.enrolled.offer_of_not_mem hg (hunlisted hg), fun hg hl hk => ?_,
    fun {a g} hg => ?_, fun hg hk => ?_, fun hm hk => ?_, fun hm hb => halone ⟨_, hm, hb⟩,
    fun {m} hm => ?_⟩
  -- a copy is kept by the parent only, and the copy that a parent keeps is up to date
  · obtain ⟨f, hf, hparent⟩ := hp.copies hg hl
    obtain ⟨g', hg', hcopy⟩ := hr.enrolled.copied hf hparent
    rw [puddleHead_inj hg' hg, hl] at hcopy
    exact hunlisted hf (Option.some.inj hcopy ▸ hk)
  · exact Option.eq_none_iff_forall_ne_some.2 fun l hl => hunlisted hg (hp.services hg hl)
  · obtain ⟨f, hf, -⟩ := hr.wired.siblings hg hk
    cases (fogNode_eq_ok_iff.1 hn).symm.trans (puddleHead_eq_ok_iff.1 hf)
  · exact halone (hr.befriended.symmetric ⟨_, hm, hk⟩)
  · obtain rfl := fogNode_inj hn hm
    refine Option.eq_none_iff_forall_ne_some.2 fun transition hp => ?_
    obtain ⟨head, rfl⟩ := hgone.pending hp
    exact hidle head (hwaits head hp)

end Parting

end Registry

variable {s s' : Session World Payload} {k : EntityId} {n : FogNode}

/-- A step that succeeds leaves enough messages on their way for each node that has gone. -/
theorem Session.Advance.parting (hs : s.Steady False)
    (hold : ¬ s.state.registry.Lives k → s.state.registry.Parting k (s.errands k))
    (h : s.Advance True s') (hgone : ¬ s'.state.registry.Lives k) :
    s'.state.registry.Parting k (s'.errands k) := by
  cases h with
  | rests hrest hregistry =>
    unfold errands
    rw [hregistry] at hgone ⊢
    rw [hrest]
    exact hold hgone
  | passes hqueue hrest hregistry =>
    rw [hregistry] at hgone ⊢
    rw [errands_of_noop hqueue hrest]
    exact hold hgone
  | fails hok => exact absurd trivial hok
  | @reacts sender id msg rest _ out _ t hqueue hreact _ hall hrest hregistry =>
    obtain rfl := hall trivial
    have herrands : s.errands k = FogNet.errands k _ := congrArg (FogNet.errands k) hqueue
    rw [hregistry] at hgone ⊢
    refine Registry.Parting.mono ?_ fun a => (errands_perm hrest).mem_iff.2
    -- either the node goes now, or it had gone before
    by_cases hlive : s.state.registry.Lives k
    · obtain ⟨rfl, rfl⟩ : msg = .nodeLeave ∧ id = k := by
        by_contra hstay
        exact hgone ((hreact.lives_iff hstay).2 hlive)
      obtain ⟨n, hn, hne, rfl, rfl⟩ := hreact.of_nodeLeave hlive
      obtain ⟨due, ⟨m, hm, hphase, hlists⟩, hwaits⟩ := hs.awaits hlive
      obtain rfl := fogNode_inj hn hm
      refine .departing hn hne hphase hlists fun a hdue => ?_
      rw [hdue, herrands, transfers_cons_nodeLeave] at hwaits
      have hwaits := hwaits.resolve_right And.left
      have hleave : (a, Message.leavePuddle id) ∈ (FogNet.errands id rest).filter isTransfer := by
        rw [hwaits]
        simp [isTransfer]
      exact (List.mem_filter.1 hleave).1
    · refine Registry.Parting.react (herrands ▸ hold hlive) (fun hmsg => ?_) hreact
      subst hmsg
      have hnext : Payload.deliver sender id (.leavePuddle k) ∈ s.payloads := by
        rw [hqueue]
        exact List.mem_cons_self
      exact (hs.addressed hnext Message.noConfusion).1

namespace Reachable

/-- While nodes are told to leave and no step fails, there are always enough messages on their way
for each node that has gone. -/
theorem parting (hs : Reachable (.departures fun _ => False) s)
    (hk : s.state.registry.kind k = .ok .fogNode) (hgone : ¬ s.state.registry.Lives k) :
    s.state.registry.Parting k (s.errands k) := by
  induction hs with
  | built hb h =>
    obtain ⟨n, hn⟩ := kind_eq_fogNode_iff.1 hk
    have hsettled := (Builder.built_of_build hb.draft h).settled hn
    exact absurd ((lives_iff hn).2 hsettled.2.1) hgone
  | stepped hs h ih =>
    have hadvance := (Session.advance_of_ok hs.orderly h).1
    rw [hadvance.kind] at hk
    exact hadvance.parting (hs.steady fun _ hf => hf) (ih hk) hgone
  | failed _ _ hf => exact hf.elim
  | posted _ _ ih =>
    refine (ih hk hgone).mono fun a ha => ?_
    obtain ⟨htrav, sender, hp⟩ := mem_errands_iff.1 ha
    exact mem_errands_iff.2 ⟨htrav, sender, mem_payloads_post.2 (.inr hp)⟩
  | waited _ _ ih => exact ih hk hgone
  | intervened _ h ih =>
    obtain ⟨t, ht, rfl⟩ := h.slight
    rw [kind_touch] at hk
    rw [ht.spares.lives_iff] at hgone
    exact (ih hk hgone).spared ht.spares

/-- Whenever nodes are told to leave, a node that has departed is forgotten as soon as no message
that tells a head to strike it off is on its way. -/
theorem forgotten_of_departures (hs : Reachable (.departures fun _ => False) s)
    (hn : s.state.registry.fogNode k = .ok n) (hgone : n.standing = .departed)
    (hidle : ∀ sender head, .deliver sender head (.leavePuddle k) ∉ s.payloads) :
    s.state.registry.Forgotten k := by
  have hlives : ¬ s.state.registry.Lives k := fun hl => (lives_iff hn).1 hl hgone
  refine (hs.parting (kind_eq_fogNode_iff.2 ⟨n, hn⟩) hlives).forgotten hs.orderly hs.pruned ?_
  intro head hin
  obtain ⟨-, sender, hp⟩ := mem_errands_iff.1 hin
  exact hidle sender head hp

end Reachable

namespace Crossing

/-- The network when the west has struck off the neighbour that has left. -/
def afterwards : Session World Payload := stateOf (without.step World.handle)

theorem history_afterwards : History (.departures fun _ => False) [without, farewell] afterwards :=
  history_without.next (by decide +kernel)

end Crossing

/-- The west still lists the neighbour that has left, and the neighbour is forgotten when the west
has struck it off. -/
theorem Reachable.forgotten_neighbour :
    Crossing.without.state.registry.Lists Crossing.west Crossing.neighbour ∧
      Crossing.afterwards.state.registry.Forgotten Crossing.neighbour := by
  have hstanding : (Crossing.afterwards.state.registry.fogNode Crossing.neighbour).toOption.map
      (·.standing) = some .departed := by decide +kernel
  have herrands : Crossing.afterwards.errands Crossing.neighbour = [] := by decide +kernel
  obtain ⟨n, hn, hgone⟩ := Option.map_eq_some_iff.1 hstanding
  refine ⟨listed_iff.1 (by decide +kernel), ?_⟩
  refine forgotten_of_departures Crossing.history_afterwards.reachable (eq_ok_of_toOption hn) hgone
    fun sender head hp => ?_
  have hin : (head, .leavePuddle Crossing.neighbour) ∈
      Crossing.afterwards.errands Crossing.neighbour := mem_errands_iff.2 ⟨rfl, sender, hp⟩
  rw [herrands] at hin
  cases hin

end FogNet
