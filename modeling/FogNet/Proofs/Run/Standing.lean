import FogNet.Proofs.Run.Departure
import FogNet.Proofs.Run.Handover
import FogNet.Proofs.Run.Order

/-!
# Where nodes go

While no message comes from outside, a node goes from one standing to another in four ways only
(`Standing.Step`), and it is never left without a head once it has one. It changes its head when the
new head gets the message to take it over, and that message was posted when the broker had found the
node outside the region of its old head and the new head to be the first one that covers it
(`Session.Relocates`). What links the delivery to that decision is that a node stays where it is as
long as the message waits (`History.owns_of_relocates`), however long that takes and whatever
happens to other nodes.
-/

namespace FogNet

open Registry

/-- The ways in which a node goes from one standing to another of its own accord. -/
inductive Standing.Step : Standing → Standing → Prop where
  /-- A node in no puddle is taken in. -/
  | joins (head : EntityId) : Step .unassigned (.owned head)
  /-- A node goes from one head to another. -/
  | crosses {old new : EntityId} (hne : old ≠ new) : Step (.owned old) (.owned new)
  /-- A node in no puddle departs. -/
  | givesUp : Step .unassigned .departed
  /-- A node departs from its head. -/
  | departs (head : EntityId) : Step (.owned head) .departed

/-- What becomes of the standing of a node `k` when a message is delivered to `id`. -/
inductive Standing.Goes (id k : EntityId) (msg : Message) : Standing → Standing → Prop where
  /-- The node stays where it is. -/
  | stays (standing : Standing) : Goes id k msg standing standing
  /-- The head takes the node in. -/
  | joins (hmsg : msg = .joinPuddle k) : Goes id k msg .unassigned (.owned id)
  /-- The head takes the node over. -/
  | crosses {old : EntityId} (hmsg : msg = .relocate k) (hne : old ≠ id) :
      Goes id k msg (.owned old) (.owned id)
  /-- The node departs. -/
  | departs {standing : Standing} (hlive : standing ≠ .departed) : Goes id k msg standing .departed

variable {c : Settings} {broker id k old new : EntityId} {now : Time} {r : Registry}
  {msg : Message} {out : List Outgoing} {t : Touch} {n : FogNode} {here there : Standing}

namespace Standing

theorem Goes.step (h : Goes id k msg here there) : there = here ∨ here.Step there := by
  cases h with
  | stays => exact .inl rfl
  | joins => exact .inr (.joins id)
  | crosses _ hne => exact .inr (.crosses hne)
  | departs hlive =>
    cases here with
    | unassigned => exact .inr .givesUp
    | owned head => exact .inr (.departs head)
    | departed => exact absurd rfl hlive

theorem Goes.of_owned (h : Goes id k msg (.owned old) (.owned new)) (hne : old ≠ new) :
    msg = .relocate k ∧ id = new := by
  cases h with
  | stays => exact absurd rfl hne
  | crosses hmsg _ => exact ⟨hmsg, rfl⟩

theorem Step.ne_unassigned (h : here.Step there) : there ≠ .unassigned := by
  cases h <;> exact nofun

end Standing

/-! ## One reaction -/

/-- A node waits for at most one head to take it over. -/
theorem Registry.Expects.target_unique (h : r.Expects k (some (old, .relocate k)))
    (h' : r.Expects k (some (new, .relocate k))) : new = old := by
  obtain ⟨n, hn, hphase, -⟩ := h
  obtain ⟨m, hm, hphase', -⟩ := h'
  obtain rfl := fogNode_inj hn hm
  obtain ⟨source, -, -, hp⟩ := hphase.of_relocate
  obtain ⟨source', -, -, hp'⟩ := hphase'.of_relocate
  rw [hp] at hp'
  cases hp'
  rfl

theorem Addressed.kind_traveller (h : Addressed r id msg) (htrav : msg.traveller? id = some k) :
    r.kind k = .ok .fogNode := by
  cases msg with
  | joinPuddle node | relocate node | leavePuddle node => exact h.2 k htrav
  | nodeLeave =>
    obtain rfl := Option.some.inj htrav
    exact h.1
  | updateLocation | processNodeMove node | updateLatency => cases htrav

namespace Reaction

/-- A message that is not about a node leaves the node where it is. -/
theorem standing_eq (h : Reaction c broker now r id msg out t) (hn : r.fogNode k = .ok n)
    (htrav : msg.traveller? id ≠ some k) : (t.node k n).standing = n.standing := by
  by_cases hmove : msg = .processNodeMove k
  · subst hmove
    cases h with
    | ignores => rfl
    | places => exact standing_placement _ _
  · exact ((h.spares htrav hmove).1.node hn).1

/-- A head that a node waits for takes the node in when it is told to. -/
theorem of_joinPuddle (h : Reaction c broker now r id (.joinPuddle k) out t)
    (hhead : r.kind id = .ok .puddleHead) (hk : r.Expects k (some (id, .joinPuddle k))) :
    r.StandsAt k .unassigned ∧ (r.touch t).StandsAt k (.owned id) := by
  obtain ⟨n, hn, hphase, hlists⟩ := hk
  obtain ⟨hs, hp⟩ := hphase.of_joinPuddle
  refine ⟨⟨n, hn, hs⟩, ?_⟩
  cases h with
  | ignores hkind hne =>
    rw [hhead] at hkind
    exact absurd (Except.ok.inj hkind).symm hne
  | @takesIn g _ m hg hm =>
    obtain rfl := fogNode_inj hn hm
    have hnew : k ∉ g.members := fun hin => by
      have hmay := mayList_iff.1 ((hlists id).1 ((lists_iff hg).2 hin))
      simp [hs, hp] at hmay
    have hin : r.intake id k g n = r.admitting id k g n := if_neg (by simp [hnew, hs])
    refine ⟨_, fogNode_touch hn, ?_⟩
    rw [hin]
    exact (Touch.standing_onNode (standing_settleJoin id) _).trans
      ((standing_admitting k n).trans (if_pos rfl))

/-- A head that is to strike a node off does not own it, so the node stays where it is. -/
theorem of_leavePuddle (h : Reaction c broker now r id (.leavePuddle k) out t)
    (hk : r.Expects k (some (id, .leavePuddle k))) (hn : r.fogNode k = .ok n) :
    (t.node k n).standing = n.standing := by
  obtain ⟨m, hm, hphase, -⟩ := hk
  obtain rfl := fogNode_inj hn hm
  cases h with
  | ignores => rfl
  | strikesOff _ hx =>
    obtain rfl := fogNode_inj hn hx
    refine standing_outtake n fun hs => ?_
    rcases hphase.of_leavePuddle with ⟨target, hne, howned, -⟩ | ⟨hgone, -⟩
    · rw [hs] at howned
      exact hne (Standing.owned.inj howned)
    · rw [hs] at hgone
      cases hgone

/-- Where a node goes when an errand of it arrives for which it waits, or any other message. -/
theorem goes (h : Reaction c broker now r id msg out t) (hk : r.StandsAt k here)
    (harrives : msg.traveller? id = some k →
      r.kind id = .ok msg.handler ∧ r.Expects k (some (id, msg))) :
    ∃ there, (r.touch t).StandsAt k there ∧ Standing.Goes id k msg here there := by
  obtain ⟨n, hn, rfl⟩ := hk
  by_cases htrav : msg.traveller? id = some k
  · obtain ⟨hhandler, hexpects⟩ := harrives htrav
    cases msg with
    | updateLocation | processNodeMove node | updateLatency => cases htrav
    | joinPuddle node =>
      obtain rfl := Option.some.inj htrav
      obtain ⟨hhere, hthere⟩ := h.of_joinPuddle hhandler hexpects
      rw [(standsAt_iff hn).1 hhere]
      exact ⟨_, hthere, .joins rfl⟩
    | relocate node =>
      obtain rfl := Option.some.inj htrav
      obtain ⟨old, howns, hne, ⟨m, hm, hs, -⟩, -⟩ := h.of_relocate hhandler hexpects
      rw [(owns_iff hn).1 howns]
      exact ⟨_, ⟨m, hm, hs⟩, .crosses rfl hne⟩
    | leavePuddle node =>
      obtain rfl := Option.some.inj htrav
      exact ⟨_, ⟨_, fogNode_touch hn, h.of_leavePuddle hexpects hn⟩, .stays _⟩
    | nodeLeave =>
      obtain rfl := Option.some.inj htrav
      obtain ⟨m, hm, hphase, -⟩ := hexpects
      obtain rfl := fogNode_inj hn hm
      have hlive := hphase.of_nodeLeave.1
      obtain ⟨m, hm, -, rfl, -⟩ := h.of_nodeLeave ⟨n, hn, hlive⟩
      refine ⟨_, ⟨_, fogNode_touch hn, ?_⟩, .departs hlive⟩
      rw [standing_departing, if_pos rfl]
  · exact ⟨_, ⟨_, fogNode_touch hn, h.standing_eq hn htrav⟩, .stays _⟩

end Reaction

/-! ## The broker's choice -/

namespace Registry

/-- Of the heads of a level that cover a point, one was registered first: numbers are given in that
order. -/
structure FirstToCover (r : Registry) (level : Level) (p : Point Float) (head : EntityId) :
    Prop where
  /-- The head is of the level and covers the point. -/
  covers : ∃ h, r.puddleHead head = .ok h ∧ h.level = level ∧ h.covers p = true
  /-- No head registered before it does. -/
  least : ∀ {a h}, r.puddleHead a = .ok h → h.level = level → h.covers p = true → head ≤ a

/-- A node is outside the region of its head, and another head is the first one that covers it. -/
def Strays (r : Registry) (node source target : EntityId) : Prop :=
  ∃ n g, r.fogNode node = .ok n ∧ n.standing = .owned source ∧ r.puddleHead source = .ok g ∧
    g.covers n.position = false ∧ r.FirstToCover n.level n.position target

/-- The broker sends a node from one head to another if the node has left the region of the one and
the other is the first one that covers it. -/
theorem Catalogued.strays {b : Broker} {source target : EntityId} (hr : r.Catalogued broker)
    (hb : r.broker broker = .ok b) (h : r.evaluate b k = .ok (.relocate source target)) :
    r.Strays k source target := by
  obtain ⟨n, g, hn, hs, hg, hout, hfind⟩ := evaluate_eq_relocate h
  obtain ⟨hin, hcovers, hleast⟩ := firstCovering_least (hr.ascending hb n.level) hfind
  refine ⟨n, g, hn, hs, hg, hout, ?_, fun {a f} hf hlevel hc => ?_⟩
  · obtain ⟨f, hf, hlevel⟩ := (hr.mem_headsAt_iff hb).1 hin
    obtain ⟨f', hf', hc⟩ := hcovers
    rw [puddleHead_inj hf' hf] at hc
    exact ⟨f, hf, hlevel, hc⟩
  · exact hleast a ((hr.mem_headsAt_iff hb).2 ⟨f, hf, hlevel⟩) f hf hc

theorem Strays.standsAt {source target : EntityId} (h : r.Strays k source target) :
    r.StandsAt k (.owned source) := by
  obtain ⟨n, -, hn, hs, -⟩ := h
  exact ⟨n, hn, hs⟩

theorem Strays.ne {source target : EntityId} (h : r.Strays k source target) : source ≠ target := by
  rintro rfl
  obtain ⟨n, g, -, -, hg, hout, ⟨f, hf, -, hc⟩, -⟩ := h
  rw [puddleHead_inj hf hg, hout] at hc
  cases hc

end Registry

namespace Session

/-- In the next step the broker looks at a node that has left the region of its head, and the
message by which the first head that covers the node is to take it over is posted. -/
structure Relocates (s : Session World Payload) (e : Event Payload)
    (node source target : EntityId) : Prop where
  /-- The broker is asked to look at the node. -/
  asked : ∃ d, s.Delivers d s.state.broker (.processNodeMove node)
  /-- The node has left the region of its head. -/
  strays : s.state.registry.Strays node source target
  /-- The message is posted. -/
  posts : s.Posts e
  /-- It tells the other head to take the node over. -/
  order : e.payload = .deliver s.state.broker target (.relocate node)

variable {g : Regime} {s s' q : Session World Payload} {e : Event Payload} {lossy : Prop}

/-- A message to take a node over is posted because the node has left the region of its head. -/
theorem Posts.relocates {sender : EntityId} (hs : Reachable g s) (h : s.Posts e)
    (he : e.payload = .deliver sender new (.relocate k)) : ∃ old, s.Relocates e k old new := by
  obtain ⟨node, p, hdecides, o, ho, rfl, rfl, hmsg⟩ := h.decides hs he (.relocate k)
  cases p with
  | stay | ignore => cases ho
  | join | depart =>
    obtain rfl := List.mem_singleton.1 ho
    cases hmsg
  | relocate source target =>
    obtain rfl := List.mem_singleton.1 ho
    cases hmsg
    obtain ⟨b, n, hb, -, heval⟩ := hdecides.evaluate
    exact ⟨source, hdecides.asked, hs.catalogued.strays hb heval, h, he⟩

/-! ## One step -/

theorem mem_payloads {sender receiver : EntityId} (he : e ∈ s.simulation.queue.pending)
    (hp : e.payload = .deliver sender receiver msg) :
    .deliver sender receiver msg ∈ s.payloads := by
  rw [← hp]
  exact List.mem_map_of_mem he

/-- A node waits for every errand of it that is on its way. -/
theorem Quiet.expects_of_mem {sender : EntityId} (hq : s.Quiet lossy)
    (hp : .deliver sender id msg ∈ s.payloads) (htrav : msg.traveller? id = some k) :
    s.state.registry.kind id = .ok msg.handler ∧ s.state.registry.Expects k (some (id, msg)) := by
  have haddressed : Addressed s.state.registry id msg := hq.addressed hp
  obtain ⟨due, hdue, herrands⟩ := hq.expects (haddressed.kind_traveller htrav)
  have hin : (id, msg) ∈ s.errands k := mem_errands_iff.2 ⟨htrav, sender, hp⟩
  rcases herrands with herrands | ⟨-, herrands⟩
  · rw [herrands, Option.mem_toList] at hin
    exact ⟨haddressed.1, hin ▸ hdue⟩
  · rw [herrands] at hin
    cases hin

/-- Where a node goes when the receiver of a message reacts. -/
theorem Quiet.goes (hq : s.Quiet lossy) (h : s.Reacts e id msg out t)
    (hk : s.state.registry.StandsAt k here) :
    ∃ there, s.afterStep.state.registry.StandsAt k there ∧ Standing.Goes id k msg here there := by
  obtain ⟨sender, hp⟩ := h.delivers.2
  rw [h.registry]
  exact h.reaction.goes hk fun htrav =>
    hq.expects_of_mem (mem_payloads h.delivers.mem_pending hp) htrav

theorem Quiet.goes_afterStep (hq : s.Quiet lossy) (hr : s.state.registry.Orderly)
    (hk : s.state.registry.StandsAt k here) :
    ∃ there, s.afterStep.state.registry.StandsAt k there ∧ (there = here ∨
      ∃ e id msg, s.Delivers e id msg ∧ Standing.Goes id k msg here there) := by
  rcases reacts_or_idles hr with ⟨e, id, msg, out, t, hreacts⟩ | hidles
  · obtain ⟨there, hthere, hgoes⟩ := hq.goes hreacts hk
    exact ⟨there, hthere, .inr ⟨e, id, msg, hreacts.delivers, hgoes⟩⟩
  · exact ⟨here, by rwa [hidles.registry], .inl rfl⟩

/-- A node does not change its head without a message to the new one to take it over. -/
theorem Quiet.eq_or_delivers (hq : s.Quiet lossy) (hr : s.state.registry.Orderly)
    (hold : s.state.registry.StandsAt k (.owned old))
    (hnew : s.afterStep.state.registry.StandsAt k (.owned new)) :
    new = old ∨ ∃ e, s.Delivers e new (.relocate k) := by
  obtain ⟨there, hthere, hgoes⟩ := hq.goes_afterStep hr hold
  obtain rfl := hnew.unique hthere
  rcases hgoes with heq | ⟨e, id, msg, hdelivers, hgoes⟩
  · exact .inl (Standing.owned.inj heq)
  · by_cases hne : old = new
    · exact .inl hne.symm
    · obtain ⟨rfl, rfl⟩ := hgoes.of_owned hne
      exact .inr ⟨e, hdelivers⟩

/-- A head takes a node over when it gets the message to do so. -/
theorem Quiet.owns_of_relocate (hq : s.Quiet lossy) (hr : s.state.registry.Orderly)
    (h : s.Delivers e new (.relocate k)) : s.afterStep.state.registry.Owns new k := by
  obtain ⟨sender, hp⟩ := h.2
  have hin := mem_payloads h.mem_pending hp
  obtain ⟨hhead, hexpects⟩ := hq.expects_of_mem hin (k := k) rfl
  rcases reacts_or_idles hr with ⟨d, id, msg, out, t, hreacts⟩ | hidles
  · obtain ⟨-, rfl, rfl⟩ := h.unique hreacts.delivers
    obtain ⟨old, -, -, ⟨m, hm, hs, -⟩, -⟩ := hreacts.reaction.of_relocate hhead hexpects
    rw [hreacts.registry]
    exact ⟨m, hm, hs⟩
  · exact absurd (hq.addressed hin).resolved (hidles.unresolved h)

end Session

/-! ## Whole runs -/

variable {g : Regime} {s s' q : Session World Payload} {e : Event Payload}
  {past : List (Session World Payload)}

theorem Reachable.quiet_of_undisturbed (hs : Reachable .undisturbed s) :
    s.Quiet (∃ fault, Regime.undisturbed.survives fault) :=
  hs.quiet fun _ _ _ h => h

/-- A node stays with its old head as long as the message to the new one waits. -/
theorem History.owns_of_relocates (hs : History .undisturbed past s) (hq : q ∈ past)
    (h : q.Relocates e k old new) (he : e ∈ s.simulation.queue.pending) :
    s.state.registry.StandsAt k (.owned old) := by
  refine hs.invariant (P := fun past s => q ∈ past → e ∈ s.simulation.queue.pending →
    s.state.registry.StandsAt k (.owned old)) ?_ ?_ ?_ hq he
  · exact fun _ _ hq => nomatch hq
  · intro past s hs hafter ih hq he
    have hr := hs.reachable.orderly
    have hquiet := hs.reachable.quiet_of_undisturbed
    -- the message still waits, so the node belongs to a head other than the new one
    obtain ⟨-, m, hm, hphase, -⟩ := hafter.quiet_of_undisturbed.expects_of_mem
      (Session.mem_payloads he h.order) (k := k) rfl
    obtain ⟨head, hne, hstanding, -⟩ := hphase.of_relocate
    have hthere : s.afterStep.state.registry.StandsAt k (.owned head) := ⟨m, hm, hstanding⟩
    rcases List.mem_cons.1 hq with rfl | hq
    · obtain ⟨d, hasked⟩ := h.asked
      rcases hquiet.eq_or_delivers hr h.strays.standsAt hthere with rfl | ⟨d', hdelivers⟩
      · exact hthere
      · cases (hasked.unique hdelivers).2.2
    -- a later step cannot have posted the message again, as numbers are not given twice
    · have hold : e ∈ s.simulation.queue.pending :=
        (Session.mem_pending_afterStep hr he).resolve_right fun hposts =>
          absurd (hs.id_lt_of_posts hq h.posts) (Nat.not_lt.2 hposts.isNew)
      rcases hquiet.eq_or_delivers hr (ih hq hold) hthere with rfl | ⟨d, hdelivers⟩
      · exact hthere
      -- a node does not wait for two heads to take it over
      · obtain ⟨sender, hp⟩ := hdelivers.2
        have hwaits := (hquiet.expects_of_mem (Session.mem_payloads hold h.order) (k := k) rfl).2
        have harrives := (hquiet.expects_of_mem
          (Session.mem_payloads hdelivers.mem_pending hp) (k := k) rfl).2
        exact absurd (hwaits.target_unique harrives) hne
  · intro past s s' hnudged ih hq he
    rw [hnudged.standsAt_iff]
    rcases hnudged.queue.pending e he with hold | ⟨-, now, due, hnoop⟩
    · exact ih hq hold
    · have hnoop : e.payload = .noop := hnoop
      rw [h.order] at hnoop
      cases hnoop

/-- Every message to take a node over was posted because the node had left the region of its
head. -/
theorem History.relocates_of_delivers (hs : History .undisturbed past s)
    (h : s.Delivers e new (.relocate k)) : ∃ old, ∃ q ∈ past, q.Relocates e k old new := by
  obtain ⟨sender, hp⟩ := h.2
  rcases hs.origin h.mem_pending with ⟨j, htimer⟩ | ⟨now, due, hnoop⟩ | ⟨q, hq, hposts⟩
  · rw [hp] at htimer
    cases htimer
  · have hnoop : e.payload = .noop := hnoop
    rw [hp] at hnoop
    cases hnoop
  · obtain ⟨old, hrelocates⟩ := hposts.relocates (hs.reachable_of_mem hq) hp
    exact ⟨old, q, hq, hrelocates⟩

/-- What a move does to a node, seen from the steps before it. -/
structure Session.Wanders (past : List (Session World Payload)) (s s' : Session World Payload)
    (k : EntityId) : Prop where
  /-- The node stays where it is or goes one step. -/
  step : ∀ {here}, s.state.registry.StandsAt k here → ∃ there, s'.state.registry.StandsAt k there ∧
    (there = here ∨ here.Step there)
  /-- The node goes from one head to another exactly if the message to take it over is delivered
  that was posted when the node had left the region of the one head and the other was the first one
  to cover it. -/
  crosses : ∀ {old new}, old ≠ new →
    (s.state.registry.Owns old k ∧ s'.state.registry.Owns new k ↔
      s' = s.afterStep ∧ ∃ e, s.Delivers e new (.relocate k) ∧ ∃ q ∈ past, q.Relocates e k old new)
  /-- There are no other messages to take the node over. -/
  decided : ∀ {e new}, s.Delivers e new (.relocate k) →
    ∃ old, old ≠ new ∧ ∃ q ∈ past, q.Relocates e k old new

theorem History.wanders (hs : History .undisturbed past s) (h : s.Next .undisturbed s')
    (k : EntityId) : s.Wanders past s' k := by
  have hr := hs.reachable.orderly
  have hquiet := hs.reachable.quiet_of_undisturbed
  refine ⟨fun {here} hhere => ?_, fun {old new} hne => ⟨fun ⟨hold, hnew⟩ => ?_, ?_⟩,
    fun {e new} hdelivers => ?_⟩
  · rcases h.cases with rfl | hnudged
    · obtain ⟨there, hthere, hgoes⟩ := hquiet.goes_afterStep hr hhere
      refine ⟨there, hthere, ?_⟩
      rcases hgoes with heq | ⟨e, id, msg, -, hgoes⟩
      · exact .inl heq
      · exact hgoes.step
    · exact ⟨here, hnudged.standsAt_iff.2 hhere, .inl rfl⟩
  · rcases h.cases with rfl | hnudged
    · obtain ⟨e, hdelivers⟩ := (hquiet.eq_or_delivers hr hold hnew).resolve_left hne.symm
      -- the head that the broker found it to have left is the one it has now
      obtain ⟨source, q, hq, hrelocates⟩ := hs.relocates_of_delivers hdelivers
      have hsource := hs.owns_of_relocates hq hrelocates hdelivers.mem_pending
      obtain rfl := Standing.owned.inj (hsource.unique hold)
      exact ⟨rfl, e, hdelivers, q, hq, hrelocates⟩
    · exact absurd (Standing.owned.inj ((hnudged.standsAt_iff.1 hnew).unique hold)) hne
  · rintro ⟨rfl, e, hdelivers, q, hq, hrelocates⟩
    exact ⟨hs.owns_of_relocates hq hrelocates hdelivers.mem_pending,
      hquiet.owns_of_relocate hr hdelivers⟩
  · obtain ⟨old, q, hq, hrelocates⟩ := hs.relocates_of_delivers hdelivers
    exact ⟨old, hrelocates.strays.ne, q, hq, hrelocates⟩

theorem Reachable.steps_onward (hs : Reachable .undisturbed s) (h : s.Onward .undisturbed q)
    (hk : s.state.registry.StandsAt k here) : ∃ there, q.state.registry.StandsAt k there ∧
      Relation.ReflTransGen Standing.Step here there := by
  induction h with
  | refl => exact ⟨here, hk, .refl⟩
  | tail h hnext ih =>
    obtain ⟨there, hthere, hsteps⟩ := ih
    obtain ⟨past, hpast⟩ := (hs.onward h).history
    obtain ⟨next, hnext, heq | hstep⟩ := (hpast.wanders hnext k).step hthere
    · exact ⟨next, hnext, heq ▸ hsteps⟩
    · exact ⟨next, hnext, hsteps.tail hstep⟩

/-- Without messages from outside, a node goes one step in a move at most, changes its head exactly
when the broker's message to the new one is delivered, and is never left without a head again. -/
theorem History.wanders_of_undisturbed (hs : History .undisturbed past s) (k : EntityId) :
    (∀ {s'}, s.Next .undisturbed s' → s.Wanders past s' k) ∧
      ∀ {q here}, s.Onward .undisturbed q → s.state.registry.StandsAt k here →
        ∃ there, q.state.registry.StandsAt k there ∧
          Relation.ReflTransGen Standing.Step here there ∧
            (here ≠ .unassigned → there ≠ .unassigned) := by
  refine ⟨fun h => hs.wanders h k, fun h hhere => ?_⟩
  obtain ⟨there, hthere, hsteps⟩ := hs.reachable.steps_onward h hhere
  refine ⟨there, hthere, hsteps, fun hplaced => ?_⟩
  rcases Relation.ReflTransGen.cases_tail hsteps with rfl | ⟨_, -, hstep⟩
  · exact hplaced
  · exact hstep.ne_unassigned

namespace Crossing

/-- The network when the east has been told to take the walker over. -/
def told : Session World Payload := first.afterStep.afterStep

theorem history_told : History .undisturbed [first.afterStep, first] told := by
  obtain ⟨b, hb, hbuild⟩ := made_of_start start_eq
  have hstart : History .undisturbed [] first := .built hb hbuild
  exact (hstart.next (by decide +kernel)).next (by decide +kernel)

end Crossing

/-- The walker goes from the west to the east, as the broker has decided one step before. -/
theorem History.wanders_walker : Crossing.west ≠ Crossing.east ∧
    Crossing.told.state.registry.Owns Crossing.west Crossing.walker ∧
    Crossing.told.afterStep.state.registry.Owns Crossing.east Crossing.walker ∧
    ∃ e, Crossing.told.Delivers e Crossing.east (.relocate Crossing.walker) ∧
      ∃ q ∈ [Crossing.first.afterStep, Crossing.first],
        q.Relocates e Crossing.walker Crossing.west Crossing.east := by
  have hne : Crossing.west ≠ Crossing.east := by decide
  have hwest : Crossing.told.state.registry.StandsAt Crossing.walker (.owned Crossing.west) :=
    standsAt_of_toOption (by decide +kernel)
  have heast : Crossing.told.afterStep.state.registry.StandsAt Crossing.walker
      (.owned Crossing.east) := standsAt_of_toOption (by decide +kernel)
  obtain ⟨hnext, -⟩ := wanders_of_undisturbed Crossing.history_told Crossing.walker
  have hmove : Crossing.told.Next .undisturbed Crossing.told.afterStep :=
    .afterStep fun _ => trivial
  exact ⟨hne, hwest, heast, ((hnext hmove).crosses hne).1 ⟨hwest, heast⟩ |>.2⟩

end FogNet
