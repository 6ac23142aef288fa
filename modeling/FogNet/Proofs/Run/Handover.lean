import FogNet.Proofs.Run.History
import FogNet.Proofs.Run.Quiet

/-!
# How long two heads list a node

A node that has been taken over stays on the list of its former owner until that head is told to
strike it off, which happens when the hand-off delay has passed. `Session.HandsOver` says that a
node is between two heads and when this ends. `Session.Chronicled` ties it to the history of a run:
a node is handed over exactly if a head was told to take it over and the message to its former owner
is not due yet. When a run has stopped at an instant, all messages due by then have been delivered,
so two heads list a node exactly during the hand-off delay (`Paused.listings_of_runUntil`).
-/

namespace FogNet

open Registry

/-- No message is posted from outside, nothing is posted in the past, and no step fails. -/
def Regime.punctual : Regime := ⟨fun now due p => p = .noop ∧ now ≤ due, fun _ => False⟩

namespace Session

/-- A node belongs to its new owner, and its old one is to strike it off at an instant. -/
structure HandsOver (s : Session World Payload) (node old new : EntityId) (due : Time) : Prop where
  /-- The node is in the middle of the change. -/
  stands : s.state.registry.Stands node (.owned new) (some (.relocating old new))
  /-- The message to the old owner is on its way. -/
  leave : ∃ sender, (due, .deliver sender old (.leavePuddle node)) ∈ s.entries

/-- Nothing happens to the change of a node, and its errands stay on their way. -/
structure Untouched (s s' : Session World Payload) (node : EntityId) : Prop where
  /-- The node stands as it stood. -/
  stands : ∀ standing pending,
    s'.state.registry.Stands node standing pending ↔ s.state.registry.Stands node standing pending
  /-- Its errands are due when they were due. -/
  errands : ∀ {e}, e ∈ s.entries → e.2.errand? node ≠ none → e ∈ s'.entries

/-- What a turn does to the change of a node. -/
inductive Progress (s s' : Session World Payload) (node : EntityId) : Prop where
  /-- Nothing. -/
  | waits (h : s.Untouched s' node)
  /-- The change goes on, and its next errand is sent. -/
  | goesOn {now : Time} {sender id : EntityId} {msg : Message} {rest : List (Time × Payload)}
      {out : List Outgoing} {t : Touch} {next : Option Errand}
      (hqueue : s.entries = (now, .deliver sender id msg) :: rest)
      (hclock : s'.simulation.clock = now)
      (hreact : Reaction s.state.settings s.state.broker now s.state.registry id msg out t)
      (hrest : s'.entries.Perm (out.map (Outgoing.entry now) ++ rest))
      (hregistry : s'.state.registry = s.state.registry.touch t)
      (hleft : FogNet.errands node (rest.map Prod.snd) = [])
      (hnext : s'.state.registry.Expects node next)
      (hout : FogNet.errands node (out.map (·.payload)) = next.toList)

end Session

variable {s s' : Session World Payload} {k old new : EntityId} {due : Time} {n : FogNode}
  {lossy : Prop}

/-! ## One turn -/

/-- A head is told to strike a node off when another one takes the node over or the node departs. -/
theorem Reaction.cause_of_leave {settings : Settings} {broker id : EntityId} {now : Time}
    {r : Registry} {msg : Message} {out : List Outgoing} {t : Touch} {o : Outgoing}
    (h : Reaction settings broker now r id msg out t) (ho : o ∈ out)
    (hmsg : o.message = .leavePuddle k) :
    msg = .relocate k ∨ ∀ n, (t.node k n).standing = .departed := by
  cases h with
  | moves hn =>
    unfold FogNode.reports at ho
    simp only [List.cons_append, List.mem_cons, List.mem_append, List.mem_map,
      List.not_mem_nil, or_false] at ho
    rcases ho with rfl | ⟨link, -, rfl⟩ | rfl <;> cases hmsg
  | departs hn =>
    unfold FogNode.farewell at ho
    obtain ⟨head, -, rfl⟩ := List.mem_map.1 ho
    cases hmsg
    refine .inr fun m => ?_
    rw [standing_departing, if_pos rfl]
  | takesOver =>
    obtain rfl := List.mem_singleton.1 ho
    cases hmsg
    exact .inl rfl
  | @places _ _ _ p =>
    cases p with
    | stay | ignore => cases ho
    | join | relocate | depart =>
      obtain rfl := List.mem_singleton.1 ho
      cases hmsg
  | ignores | rests | isGone | takesIn | misses | keeps | picksUp | strikesOff | measures =>
    cases ho

/-- A head that a node waits for takes the node over when it is told to, and has the former owner
strike the node off. -/
theorem Reaction.of_relocate {settings : Settings} {broker : EntityId} {now : Time} {r : Registry}
    {out : List Outgoing} {t : Touch}
    (h : Reaction settings broker now r new (.relocate k) out t)
    (hnew : r.kind new = .ok .puddleHead) (hk : r.Expects k (some (new, .relocate k))) :
    ∃ old, r.Owns old k ∧ old ≠ new ∧
      (r.touch t).Stands k (.owned new) (some (.relocating old new)) ∧
      out = [⟨settings.handoffDelay, new, old, .leavePuddle k⟩] := by
  obtain ⟨n, hn, hphase, hlists⟩ := hk
  obtain ⟨old, hne, hs, hp⟩ := hphase.of_relocate
  refine ⟨old, (owns_iff hn).2 hs, hne, ?_⟩
  cases h with
  | ignores hkind hc =>
    rw [hnew] at hkind
    exact absurd (Except.ok.inj hkind).symm hc
  | misses _ hm hc | picksUp _ hm hc =>
    rw [fogNode_inj hm hn, hs] at hc
    cases hc
  | keeps _ hm hc =>
    rw [fogNode_inj hm hn, hs] at hc
    exact absurd (Standing.owned.inj hc) hne
  | takesOver hh hm howned =>
    obtain rfl := fogNode_inj hm hn
    rw [hs] at howned
    obtain rfl := Standing.owned.inj howned
    obtain ⟨m, hm, hphase', -⟩ := expects_handover hh hn hne hs hp hlists
    have hpending : m.pending = some (.relocating old new) := by
      rw [fogNode_inj hm (fogNode_touch hn), pending_intake, hp]
    -- the former owner strikes off a node that has a new owner or one that has gone
    refine ⟨⟨m, hm, ?_, hpending⟩, rfl⟩
    rcases hphase'.of_leavePuddle with ⟨target, -, hs', hp'⟩ | ⟨-, hp'⟩
    · rw [hpending] at hp'
      cases hp'
      exact hs'
    · rw [hpending] at hp'
      cases hp'

namespace Session

theorem Untouched.handsOver (h : s.Untouched s' k) (hs : s.HandsOver k old new due) :
    s'.HandsOver k old new due := by
  obtain ⟨sender, hleave⟩ := hs.leave
  exact ⟨(h.stands _ _).2 hs.stands, sender, h.errands hleave (by simp [Payload.errand?,
    Message.traveller?])⟩

/-- A turn leaves the change of a node alone or carries it on. -/
theorem Quiet.progress (hq : s.Quiet lossy) (hl : ¬ lossy) (h : s.Turn True s')
    (hk : s.state.registry.kind k = .ok .fogNode) : s.Progress s' k := by
  cases h with
  | rests _ hsame =>
    subst hsame
    exact .waits ⟨fun _ _ => Iff.rfl, fun he _ => he⟩
  | passes hqueue _ hrest hworld =>
    refine .waits ⟨fun _ _ => by rw [hworld], fun {e} he hne => ?_⟩
    rw [hqueue] at he
    rcases List.mem_cons.1 he with rfl | he
    · exact absurd rfl hne
    · rwa [hrest]
  | fails hok => exact absurd trivial hok
  | @reacts now sender id msg rest out sent t hqueue hclock hreact hsent hall hrest hregistry =>
    obtain rfl := hall trivial
    have hpayloads := payloads_of_entries hqueue
    have haddressed : Addressed s.state.registry id msg :=
      hq.addressed (by rw [hpayloads]; exact List.mem_cons_self)
    obtain ⟨due, hdue, herrands⟩ := hq.errands_eq hl hk
    unfold errands at herrands
    rw [hpayloads] at herrands
    have harrived : msg.traveller? id = some k →
        due = some (id, msg) ∧ FogNet.errands k (rest.map Prod.snd) = [] := fun htrav =>
      due_of_arrived htrav herrands
    rcases hreact.course hdue fun htrav => ⟨haddressed.1, (harrived htrav).1⟩ with
      ⟨htrav, ht, -⟩ | ⟨hwhy, next, hnext, hout⟩
    · refine .waits ⟨fun _ _ => ?_, fun {e} he hne => ?_⟩
      · rw [hregistry]
        exact stands_touch_iff ht.node
      · rw [hqueue] at he
        rcases List.mem_cons.1 he with rfl | he
        · exact absurd (if_neg htrav) hne
        · exact hrest.mem_iff.2 (List.mem_append_right _ he)
    · refine .goesOn hqueue hclock hreact hrest hregistry ?_ (hregistry ▸ hnext) hout
      rcases hwhy with ⟨htrav, -⟩ | ⟨rfl, rfl⟩
      · exact (harrived htrav).2
      · have htrav : (Message.processNodeMove k).traveller? id ≠ some k := nofun
        rwa [errands_cons_of_ne htrav] at herrands

/-- A head that is told to take a node over does so, and the former owner is to strike the node off
when the hand-off delay has passed. -/
theorem Quiet.handsOver_of_relocate {time : Time} (hq : s.Quiet lossy) (hl : ¬ lossy)
    (h : s.Turn True s') (hh : s.Hands time new (.relocate k)) :
    s'.simulation.clock = time ∧ ∃ old, s.state.registry.Owns old k ∧ old ≠ new ∧
      s'.HandsOver k old new (time + s.state.settings.handoffDelay) := by
  obtain ⟨sender, rest, hqueue⟩ := hh
  cases h with
  | rests hnil =>
    rw [hqueue] at hnil
    cases hnil
  | passes hnext =>
    rw [hqueue] at hnext
    cases hnext
  | fails hok => exact absurd trivial hok
  | @reacts now sender' id msg rest' out sent t hnext hclock hreact hsent hall hrest hregistry =>
    obtain rfl := hall trivial
    rw [hqueue] at hnext
    cases hnext
    have hpayloads := payloads_of_entries hqueue
    have haddressed : Addressed s.state.registry new (.relocate k) :=
      hq.addressed (by rw [hpayloads]; exact List.mem_cons_self)
    obtain ⟨due, hdue, herrands⟩ := hq.errands_eq hl (haddressed.2 k rfl)
    unfold errands at herrands
    rw [hpayloads] at herrands
    obtain ⟨rfl, -⟩ := due_of_arrived rfl herrands
    obtain ⟨source, howns, hne, hstands, rfl⟩ := hreact.of_relocate haddressed.1 hdue
    exact ⟨hclock, source, howns, hne, hregistry ▸ hstands, new,
      hrest.mem_iff.2 (List.mem_append_left _ List.mem_cons_self)⟩

/-- A node is handed over until the message to its former owner is delivered. -/
theorem Quiet.handsOver_or_due (hq : s.Quiet lossy) (hl : ¬ lossy) (h : s.Turn True s')
    (hs : s.HandsOver k old new due) : s'.HandsOver k old new due ∨ s'.simulation.clock = due := by
  obtain ⟨n, hn, -⟩ := hs.stands
  cases hq.progress hl h (kind_eq_fogNode_iff.2 ⟨n, hn⟩) with
  | waits hsame => exact .inl (hsame.handsOver hs)
  | @goesOn now _ _ _ rest _ _ _ hqueue hclock _ _ _ hleft =>
    obtain ⟨sender, hleave⟩ := hs.leave
    rw [hqueue] at hleave
    rcases List.mem_cons.1 hleave with he | he
    · exact .inr (hclock.trans (congrArg Prod.fst he).symm)
    · have hin : (old, .leavePuddle k) ∈ FogNet.errands k (rest.map Prod.snd) :=
        mem_errands_iff.2 ⟨rfl, sender, List.mem_map_of_mem he⟩
      rw [hleft] at hin
      cases hin

/-- A node is handed over after a turn only if it was before and nothing has happened to it, or if
its new owner has just been told to take it over. -/
theorem Quiet.handsOver_cases (hq : s.Quiet lossy) (hl : ¬ lossy) (h : s.Turn True s')
    (hs : s'.state.registry.Stands k (.owned new) (some (.relocating old new))) :
    s.Untouched s' k ∨ ∃ time, s.Hands time new (.relocate k) ∧
      s'.HandsOver k old new (time + s.state.settings.handoffDelay) := by
  obtain ⟨n, hn, hstanding, hpending⟩ := hs
  have hk : s.state.registry.kind k = .ok .fogNode := by
    rw [← h.advance.kind]
    exact kind_eq_fogNode_iff.2 ⟨n, hn⟩
  cases hq.progress hl h hk with
  | waits hsame => exact .inl hsame
  | @goesOn now sender id msg rest out t next hqueue _ hreact _ hregistry _ hnext hout =>
    right
    obtain ⟨m, hm, hphase, -⟩ := hnext
    obtain rfl := fogNode_inj hn hm
    obtain rfl := hphase.due_of_owned hstanding hpending
    -- a message to the former owner has been sent
    have hsent : (old, .leavePuddle k) ∈ FogNet.errands k (out.map (·.payload)) := by
      rw [hout]
      exact List.mem_singleton.2 rfl
    obtain ⟨-, head, hp⟩ := mem_errands_iff.1 hsent
    obtain ⟨o, ho, he⟩ := List.mem_map.1 hp
    rcases hreact.cause_of_leave ho (Payload.deliver.inj he).2.2 with rfl | hgone
    · obtain ⟨-, source, -, -, hover⟩ := hq.handsOver_of_relocate hl h ⟨sender, rest, hqueue⟩
      obtain ⟨hstanding', hpending'⟩ := (stands_iff hn).1 hover.stands
      rw [hstanding] at hstanding'
      rw [hpending] at hpending'
      cases hstanding'
      cases hpending'
      exact ⟨now, ⟨sender, rest, hqueue⟩, hover⟩
    · rw [hregistry] at hn
      obtain ⟨m, -, rfl⟩ := fogNode_touch_iff.1 hn
      rw [hgone] at hstanding
      cases hstanding

end Session

/-! ## Whole runs -/

/-- What the past of a punctual run says about the nodes that are handed over. -/
structure Session.Chronicled (past : List (Session World Payload)) (s : Session World Payload) :
    Prop where
  /-- Nothing is overdue. -/
  ahead : ∀ e ∈ s.entries, s.simulation.clock ≤ e.1
  /-- A node that a head was told to take over had another owner, and it is handed over from then on
  until the hand-off delay has passed. -/
  begun : ∀ {q new time k}, q ∈ past → q.Hands time new (.relocate k) →
    time ≤ s.simulation.clock ∧ ∃ old, q.state.registry.Owns old k ∧ old ≠ new ∧
      (time + s.state.settings.handoffDelay ≤ s.simulation.clock ∨
        s.HandsOver k old new (time + s.state.settings.handoffDelay))
  /-- A head was told to take over every node that is handed over. -/
  known : ∀ {k old new},
    s.state.registry.Stands k (.owned new) (some (.relocating old new)) →
      ∃ q ∈ past, ∃ time, q.Hands time new (.relocate k) ∧
        s.HandsOver k old new (time + s.state.settings.handoffDelay)

variable {past : List (Session World Payload)}

namespace Session

/-- What happens between two events tells nothing new. -/
theorem Chronicled.between (h : s.Chronicled past)
    (hsettings : s'.state.settings = s.state.settings)
    (hclock : s.simulation.clock ≤ s'.simulation.clock)
    (hahead : ∀ e ∈ s'.entries, s'.simulation.clock ≤ e.1) (hsame : ∀ k, s.Untouched s' k) :
    s'.Chronicled past := by
  refine ⟨hahead, fun {q new time k} hq hh => ?_, fun {k old new} hs => ?_⟩
  · obtain ⟨hle, old, howns, hne, hover⟩ := h.begun hq hh
    rw [hsettings]
    exact ⟨Nat.le_trans hle hclock, old, howns, hne,
      hover.imp (fun h => Nat.le_trans h hclock) (hsame k).handsOver⟩
  · obtain ⟨q, hq, time, hh, hover⟩ := h.known (((hsame k).stands _ _).1 hs)
    rw [hsettings]
    exact ⟨q, hq, time, hh, (hsame k).handsOver hover⟩

/-- A turn makes the clock show the instant of the event, and nothing is due earlier. -/
theorem Turn.ahead {ok : Prop} (h : s.Turn ok s')
    (hahead : ∀ e ∈ s.entries, s.simulation.clock ≤ e.1) :
    s.simulation.clock ≤ s'.simulation.clock ∧ ∀ e ∈ s'.entries, s'.simulation.clock ≤ e.1 := by
  have hordered : ∀ {now p rest}, s.entries = (now, p) :: rest →
      s.simulation.clock ≤ now ∧ ∀ e ∈ rest, now ≤ e.1 := by
    intro now p rest hqueue
    have hpairs := entries_ordered s.simulation.queue
    change s.entries.Pairwise _ at hpairs
    rw [hqueue] at hpairs
    exact ⟨hahead _ (by rw [hqueue]; exact List.mem_cons_self), (List.pairwise_cons.1 hpairs).1⟩
  cases h with
  | rests _ hsame =>
    subst hsame
    exact ⟨Nat.le_refl _, hahead⟩
  | passes hqueue hclock hrest | fails _ hqueue hclock _ hrest =>
    rw [hclock, hrest]
    exact hordered hqueue
  | reacts hqueue hclock _ _ _ hrest =>
    rw [hclock]
    refine ⟨(hordered hqueue).1, fun e he => ?_⟩
    rcases List.mem_append.1 (hrest.mem_iff.1 he) with he | he
    · obtain ⟨o, -, rfl⟩ := List.mem_map.1 he
      exact Nat.le_add_right _ _
    · exact (hordered hqueue).2 e he

/-- A turn keeps the records of the past right. -/
theorem Chronicled.turn (h : s.Chronicled past) (hq : s.Quiet lossy) (hl : ¬ lossy)
    (hturn : s.Turn True s') (hsettings : s'.state.settings = s.state.settings) :
    s'.Chronicled (s :: past) := by
  obtain ⟨hclock, hahead⟩ := hturn.ahead h.ahead
  refine ⟨hahead, fun {q new time k} hmem hh => ?_, fun {k old new} hs => ?_⟩
  · rw [hsettings]
    rcases List.mem_cons.1 hmem with rfl | hmem
    · obtain ⟨htime, old, howns, hne, hover⟩ := hq.handsOver_of_relocate hl hturn hh
      exact ⟨Nat.le_of_eq htime.symm, old, howns, hne, .inr hover⟩
    · obtain ⟨hle, old, howns, hne, hover⟩ := h.begun hmem hh
      refine ⟨Nat.le_trans hle hclock, old, howns, hne, ?_⟩
      rcases hover with hover | hover
      · exact .inl (Nat.le_trans hover hclock)
      · exact (hq.handsOver_or_due hl hturn hover).symm.imp_left fun h => Nat.le_of_eq h.symm
  · rw [hsettings]
    rcases hq.handsOver_cases hl hturn hs with hsame | ⟨time, hh, hover⟩
    · obtain ⟨q, hmem, time, hh, hover⟩ := h.known ((hsame.stands _ _).1 hs)
      exact ⟨q, List.mem_cons_of_mem _ hmem, time, hh, hsame.handsOver hover⟩
    · exact ⟨s, List.mem_cons_self, time, hh, hover⟩

/-- A slight change from outside leaves every node untouched. -/
theorem untouched_of_intervention {w : World} (h : s.state.Intervention w) :
    Untouched s { s with state := w } k ∧ w.settings = s.state.settings := by
  obtain ⟨t, ht, rfl⟩ := h.slight
  refine ⟨⟨fun _ _ => stands_touch_iff fun {n} _ => ?_, fun he _ => he⟩, rfl⟩
  exact ⟨(ht.node k n).1, (ht.node k n).2.2⟩

end Session

theorem clock_foldl_schedule {α : Type} (due : α → Time) (load : α → Payload) (l : List α)
    (sim : Simulation Payload) :
    (l.foldl (fun sim a => sim.schedule (due a) (load a)) sim).clock = sim.clock := by
  induction l generalizing sim with
  | nil => rfl
  | cons a rest ih => exact ih _

theorem clock_of_build {b : Builder} (h : b.build = .ok s) : s.simulation.clock = 0 := by
  unfold Builder.build at h
  split at h
  · cases h
  · split at h
    · cases h
    · cases h
      unfold Builder.firstEvents
      rw [clock_foldl_schedule (fun _ => _) Builder.timer, clock_foldl_schedule Prod.fst Prod.snd]
      rfl

theorem History.quiet_of_punctual (hs : History .punctual past s) :
    s.Quiet (∃ fault, Regime.punctual.survives fault) :=
  hs.reachable.quiet fun _ _ _ (h : _ ∧ _) => h.1

/-- The past of a punctual run says who is handed over. -/
theorem History.chronicled (hs : History .punctual past s) : s.Chronicled past := by
  have hl : ¬ ∃ fault, Regime.punctual.survives fault := fun ⟨_, h⟩ => h
  induction hs with
  | @built b s hb h =>
    refine ⟨fun e _ => ?_, fun hq => (nomatch hq), fun {k old new} hs => ?_⟩
    · rw [clock_of_build h]
      exact Nat.zero_le _
    · obtain ⟨n, hn, -, hp⟩ := hs
      rw [((Builder.built_of_build hb.draft h).settled hn).1] at hp
      cases hp
  | stepped hs h ih =>
    obtain ⟨hturn, -, hsettings⟩ := Session.turn_of_ok hs.reachable.orderly h
    exact ih.turn hs.quiet_of_punctual hl hturn hsettings
  | failed _ _ hf => exact hf.elim
  | @posted past s due p hs h ih =>
    obtain ⟨rfl, hdue⟩ := h
    have hperm := entries_post_perm s.simulation.queue due .noop
    refine ih.between rfl (Nat.le_refl _) (fun e he => ?_) fun k => ⟨fun _ _ => Iff.rfl,
      fun he _ => hperm.mem_iff.2 (List.mem_cons_of_mem _ he)⟩
    rcases List.mem_cons.1 (hperm.mem_iff.1 he) with rfl | he
    · exact hdue
    · exact ih.ahead e he
  | @waited past s time hs h ih =>
    refine ih.between rfl (Nat.le_max_left _ _) (fun e he => ?_) fun k => ⟨fun _ _ => Iff.rfl,
      fun he _ => he⟩
    obtain ⟨d, hd, rfl⟩ := List.mem_map.1 he
    exact Nat.max_le.2 ⟨ih.ahead _ he, Nat.le_of_lt (h d hd)⟩
  | intervened hs h ih =>
    exact ih.between (Session.untouched_of_intervention (k := 0) h).2 (Nat.le_refl _) ih.ahead
      fun k => (Session.untouched_of_intervention h).1

/-! ## Between two runs up to an instant -/

/-- The runs without messages from outside that have only been run up to one instant after the
other, and the sessions from which they have handed out an event. -/
inductive Paused : List (Session World Payload) → Session World Payload → Prop where
  /-- A network is finished. -/
  | built {b : Builder} {s : Session World Payload} (hb : b.Made (Regime.punctual.admits 0))
      (h : b.build = .ok s) : Paused [] s
  /-- The network is run up to an instant. -/
  | ranUntil {past : List (Session World Payload)} {s s' : Session World Payload} {horizon : Time}
      {budget : Nat} (hs : Paused past s)
      (h : s.runUntil World.handle horizon budget = some (.ok () s')) :
      Paused (s.trail World.handle (s'.handedOutSince s) ++ past) s'
  /-- An event without a message is posted. -/
  | posted {past : List (Session World Payload)} {s : Session World Payload} {due : Time}
      (hs : Paused past s) (h : s.simulation.clock ≤ due) :
      Paused past { s with simulation := s.simulation.schedule due .noop }
  /-- The network is changed from outside. -/
  | intervened {past : List (Session World Payload)} {s : Session World Payload} {w : World}
      (hs : Paused past s) (h : s.state.Intervention w) : Paused past { s with state := w }

theorem Paused.history (hs : Paused past s) : History .punctual past s := by
  induction hs with
  | built hb h => exact .built hb h
  | ranUntil _ h ih => exact (ih.runUntil h).1
  | posted _ h ih => exact ih.posted ⟨rfl, h⟩
  | intervened _ h ih => exact ih.intervened h

/-- No message waits that is due by now. -/
def Session.UpToDate (s : Session World Payload) : Prop :=
  ∀ e ∈ s.entries, e.2 ≠ .noop → s.simulation.clock < e.1

/-- All messages due by an instant have been delivered once the run has stopped there. -/
theorem History.upToDate_of_runUntil {g : Regime} {horizon : Time} {budget : Nat}
    (hs : History g past s) (hup : s.simulation.clock = 0 ∨ s.UpToDate)
    (h : s.runUntil World.handle horizon budget = some (.ok () s')) : s'.UpToDate := by
  obtain ⟨-, hlater, hclock⟩ := hs.runUntil h
  intro e he hmsg
  have hd : horizon < e.1 := by
    obtain ⟨d, hd, rfl⟩ := List.mem_map.1 he
    exact hlater d hd
  rcases hclock with rfl | hclock
  · rcases hup with hstart | hup
    · exact Nat.max_lt.2 ⟨by rw [hstart]; exact Nat.zero_lt_of_lt hd, hd⟩
    · exact Nat.max_lt.2 ⟨hup _ he hmsg, hd⟩
  · rw [hclock]
    exact hd

theorem Paused.upToDate (hs : Paused past s) : s.simulation.clock = 0 ∨ s.UpToDate := by
  induction hs with
  | built _ h => exact .inl (clock_of_build h)
  | ranUntil hs h ih => exact .inr (hs.history.upToDate_of_runUntil ih h)
  | @posted past s due _ _ ih =>
    refine ih.imp_right fun hup e he hmsg => ?_
    rcases List.mem_cons.1 ((entries_post_perm s.simulation.queue due .noop).mem_iff.1 he) with
      rfl | he
    · exact absurd rfl hmsg
    · exact hup e he hmsg
  | intervened _ _ ih => exact ih

/-- A head was told to take a node over, and the hand-off delay has not passed since. -/
structure Session.InHandover (past : List (Session World Payload)) (s : Session World Payload)
    (node new : EntityId) (time : Time) (q : Session World Payload) : Prop where
  /-- The message was delivered from this session. -/
  mem : q ∈ past
  /-- It told the new owner at this instant. -/
  hands : q.Hands time new (.relocate node)
  /-- The instant is not later than now. -/
  le : time ≤ s.simulation.clock
  /-- The delay has not passed. -/
  lt : s.simulation.clock < time + s.state.settings.handoffDelay

/-- Who lists a node between two runs up to an instant. -/
structure Session.Listings (past : List (Session World Payload)) (s : Session World Payload)
    (node : EntityId) (n : FogNode) : Prop where
  /-- Two heads list the node exactly during the hand-off delay. -/
  twice : (∃ a b, a ≠ b ∧ s.state.registry.Lists a node ∧ s.state.registry.Lists b node) ↔
    ∃ new time q, s.InHandover past node new time q
  /-- They are its old and its new owner. -/
  ends : ∀ {new time q}, s.InHandover past node new time q → ∃ old,
    q.state.registry.Owns old node ∧ old ≠ new ∧
      ∀ a, s.state.registry.Lists a node ↔ a = old ∨ a = new
  /-- Otherwise its owner lists it, or the head that has still to strike it off. -/
  once : (¬ ∃ new time q, s.InHandover past node new time q) →
    ∀ a, s.state.registry.Lists a node ↔
      n.standing = .owned a ∨ n.standing = .departed ∧ n.pending = some (.departing (some a))
  /-- Without a delay nobody is listed twice. -/
  instant : s.state.settings.handoffDelay = 0 → ∀ a b, s.state.registry.Lists a node →
    s.state.registry.Lists b node → a = b

namespace Session.Chronicled

/-- During the hand-off delay the old and the new owner list the node. -/
theorem lists_iff_of_inHandover {time : Time} {q : Session World Payload} {e : Option Errand}
    (h : s.Chronicled past) (hk : s.state.registry.Expects k e)
    (hin : s.InHandover past k new time q) : ∃ old, q.state.registry.Owns old k ∧ old ≠ new ∧
      ∀ a, s.state.registry.Lists a k ↔ a = old ∨ a = new := by
  obtain ⟨n, hn, -, hlists⟩ := hk
  obtain ⟨-, old, howns, hne, hover⟩ := h.begun hin.mem hin.hands
  obtain ⟨hstanding, hpending⟩ :=
    (stands_iff hn).1 (hover.resolve_left (Nat.not_le.2 hin.lt)).stands
  refine ⟨old, howns, hne, fun a => ?_⟩
  rw [hlists, mayList_iff, hstanding, hpending]
  simp [eq_comm, or_comm]

/-- A node that belongs to the new owner of its change was taken over less than the delay ago, since
otherwise the message to the old owner would be overdue. -/
theorem exists_inHandover (h : s.Chronicled past) (hup : s.UpToDate)
    (hs : s.state.registry.Stands k (.owned new) (some (.relocating old new))) :
    ∃ time q, s.InHandover past k new time q := by
  obtain ⟨q, hq, time, hh, hover⟩ := h.known hs
  obtain ⟨sender, hleave⟩ := hover.leave
  exact ⟨time, q, hq, hh, (h.begun hq hh).1, hup _ hleave nofun⟩

/-- The past says who lists a node when nothing is due any longer. -/
theorem listings {e : Option Errand} (h : s.Chronicled past) (hup : s.UpToDate)
    (hn : s.state.registry.fogNode k = .ok n) (hk : s.state.registry.Expects k e) :
    s.Listings past k n := by
  have ⟨m, hm, hphase, hlists⟩ := hk
  obtain rfl := fogNode_inj hn hm
  have htwice : ∀ {a b}, a ≠ b → s.state.registry.Lists a k → s.state.registry.Lists b k →
      ∃ new time q, s.InHandover past k new time q := by
    intro a b hab ha hb
    obtain ⟨old, new, hstanding, hpending⟩ :=
      hphase.owned_of_two hab ((hlists a).1 ha) ((hlists b).1 hb)
    exact ⟨new, h.exists_inHandover hup ⟨n, hn, hstanding, hpending⟩⟩
  refine ⟨⟨fun ⟨a, b, hab, ha, hb⟩ => htwice hab ha hb, ?_⟩, h.lists_iff_of_inHandover hk,
    fun hnone a => ?_, fun hdelay a b ha hb => ?_⟩
  · rintro ⟨new, time, q, hin⟩
    obtain ⟨old, -, hne, hlisted⟩ := h.lists_iff_of_inHandover hk hin
    exact ⟨old, new, hne, (hlisted old).2 (.inl rfl), (hlisted new).2 (.inr rfl)⟩
  · rw [hlists]
    refine hphase.mayList_iff_of_single fun {old new} hpending hstanding => hnone ?_
    exact ⟨new, h.exists_inHandover hup ⟨n, hn, hstanding, hpending⟩⟩
  · by_contra hab
    obtain ⟨new, time, q, hin⟩ := htwice hab ha hb
    have hlt := hin.lt
    rw [hdelay, Nat.add_zero] at hlt
    exact absurd hin.le (Nat.not_le.2 hlt)

end Session.Chronicled

/-- Whatever the delays, when a run without messages from outside has stopped at an instant, two
heads list a node exactly if the hand-off delay has not passed since the new one was told to take
the node over. -/
theorem Paused.listings_of_runUntil {horizon : Time} {budget : Nat} (hs : Paused past s)
    (hrun : s.runUntil World.handle horizon budget = some (.ok () s'))
    (hn : s'.state.registry.fogNode k = .ok n) :
    s'.Listings (s.trail World.handle (s'.handedOutSince s) ++ past) k n := by
  have hs' := (hs.ranUntil hrun).history
  obtain ⟨due, hk, -⟩ := hs'.quiet_of_punctual.expects (kind_eq_fogNode_iff.2 ⟨n, hn⟩)
  exact hs'.chronicled.listings (hs.history.upToDate_of_runUntil hs.upToDate hrun) hn hk

namespace Crossing

/-- The network when it has been run up to an instant. -/
def upTo (horizon : Time) : Option (Session World Payload) :=
  match start with
  | .error _ => none
  | .ok first =>
    match first.runUntil World.handle horizon 8 with
    | some (.ok _ s) => some s
    | _ => none

theorem runUntil_of_upTo {horizon : Time} (h : upTo horizon = some s) :
    ∃ first, start = .ok first ∧ first.runUntil World.handle horizon 8 = some (.ok () s) := by
  unfold upTo at h
  cases hstart : start with
  | error fault =>
    rw [hstart] at h
    cases h
  | ok first =>
    rw [hstart] at h
    refine ⟨first, rfl, ?_⟩
    simp only at h
    split at h
    · rename_i hrun
      rw [hrun, Option.some.inj h]
    · cases h

theorem isSome_upTo_thirteen : (upTo 13).isSome = true := by decide +kernel

/-- The network one tick after the east has taken the walker over. -/
def pause : Session World Payload := (upTo 13).get isSome_upTo_thirteen

theorem upTo_thirteen : upTo 13 = some pause := (Option.some_get isSome_upTo_thirteen).symm

end Crossing

/-- One tick after the east has taken the walker over both heads list it, and nobody else does. -/
theorem Paused.listings_walker : ∃ first, Crossing.start = .ok first ∧
    first.runUntil World.handle 13 8 = some (.ok () Crossing.pause) ∧
    (∃ new time q, Crossing.pause.InHandover
      (first.trail World.handle (Crossing.pause.handedOutSince first) ++ [])
      Crossing.walker new time q) ∧
    ∀ a, Crossing.pause.state.registry.Lists a Crossing.walker ↔
      a = Crossing.west ∨ a = Crossing.east := by
  obtain ⟨first, hstart, hrun⟩ := Crossing.runUntil_of_upTo Crossing.upTo_thirteen
  obtain ⟨b, hb, hbuild⟩ := Crossing.made_of_start hstart
  have hwest : Crossing.pause.state.registry.Lists Crossing.west Crossing.walker :=
    listed_iff.1 (by decide +kernel)
  have heast : Crossing.pause.state.registry.Lists Crossing.east Crossing.walker :=
    listed_iff.1 (by decide +kernel)
  have hne : Crossing.west ≠ Crossing.east := by decide
  have hstart' : Paused [] first := .built hb hbuild
  have hs : History .punctual _ Crossing.pause := (hstart'.ranUntil hrun).history
  obtain ⟨n, hn⟩ := kind_eq_fogNode_iff.1 (hs.reachable.orderly.enrolled.known hwest)
  have hlistings := Paused.listings_of_runUntil hstart' hrun hn
  obtain ⟨new, time, q, h⟩ := hlistings.twice.1 ⟨Crossing.west, Crossing.east, hne, hwest, heast⟩
  obtain ⟨old, -, -, hlisted⟩ := hlistings.ends h
  refine ⟨first, hstart, hrun, ⟨new, time, q, h⟩, fun a => ?_⟩
  rw [hlisted]
  rcases (hlisted _).1 hwest with rfl | rfl <;> rcases (hlisted _).1 heast with he | he
  · exact absurd he.symm hne
  · rw [he]
  · rw [he, or_comm]
  · exact absurd he.symm hne

end FogNet
