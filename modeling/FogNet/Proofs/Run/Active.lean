import FogNet.Proofs.Run.Departure
import FogNet.Proofs.Run.Order
import FogNet.World.Snapshot

/-!
# Nodes that the broker counts

The broker takes a node off its index when it decides that the node has to leave
(`Session.Dismisses`), and at no other time: a node that is told from outside to leave departs
without the broker's knowledge. So the broker counts exactly the nodes that it has never dismissed,
and a departed node that it still counts was told to leave from outside (`History.counted`). One
message is enough for that (`Crossing.counted_departed`).
-/

namespace FogNet

open Registry

variable {c : Settings} {broker id k : EntityId} {now : Time} {r : Registry} {msg : Message}
  {out : List Outgoing} {t : Touch} {b : Broker} {o : Outgoing}

/-! ## One step -/

/-- Carrying out a decision takes a node off the index if the decision is that it has to leave. -/
theorem Placement.counted_iff {node : EntityId} (p : Placement) :
    k ∈ ((p.touch broker node).broker broker b).fogNodes ↔
      k ∈ b.fogNodes ∧ ¬ (node = k ∧ ∃ source, p = .depart source) := by
  cases p with
  | stay | ignore | join | relocate => exact (and_iff_left fun ⟨_, _, hp⟩ => nomatch hp).symm
  | depart source =>
    show k ∈ (if broker = broker then b.forgetNode node else b).fogNodes ↔ _
    rw [if_pos rfl, Broker.forgetNode, SortedSet.mem_erase, and_comm]
    exact and_congr_right fun _ => not_congr ⟨fun h => ⟨h.symm, source, rfl⟩, fun h => h.1.symm⟩

namespace Reaction

/-- Only a decision changes what the broker keeps. -/
theorem broker_eq (h : Reaction c broker now r id msg out t)
    (hmsg : ¬ ∃ node, msg = .processNodeMove node) (j : EntityId) (b : Broker) :
    t.broker j b = b := by
  cases h with
  | ignores | rests | moves | isGone | departs | misses | keeps | measures => rfl
  | takesIn | takesOver | picksUp =>
    unfold Registry.intake
    split_ifs <;> rfl
  | strikesOff =>
    unfold Registry.outtake
    split_ifs <;> rfl
  | places => exact absurd ⟨_, rfl⟩ hmsg

/-- The broker forgets the nodes that it tells to leave and nobody else. -/
theorem counted_iff (h : Reaction c broker now r id msg out t) (hr : r.Catalogued broker)
    (hb : r.broker broker = .ok b) :
    k ∈ (t.broker broker b).fogNodes ↔ k ∈ b.fogNodes ∧ ¬ (id = broker ∧ msg = .processNodeMove k ∧
      ∃ source, r.evaluate b k = .ok (.depart source)) := by
  by_cases hmove : ∃ node, msg = .processNodeMove node
  · obtain ⟨node, rfl⟩ := hmove
    cases h with
    | ignores hkind hne =>
      refine (and_iff_left ?_).symm
      rintro ⟨rfl, -⟩
      rw [kind_eq_broker_iff.2 ⟨b, hb⟩] at hkind
      exact hne (Except.ok.inj hkind).symm
    | places hb' _ _ heval =>
      obtain rfl := hr.single (kind_eq_broker_iff.2 ⟨_, hb'⟩)
      obtain rfl := Except.ok.inj (hb.symm.trans hb')
      rw [Placement.counted_iff]
      refine and_congr_right fun _ => not_congr ⟨?_, ?_⟩
      · rintro ⟨rfl, source, rfl⟩
        exact ⟨rfl, rfl, source, heval⟩
      · rintro ⟨-, hnode, source, hdepart⟩
        cases hnode
        exact ⟨rfl, source, Except.ok.inj (heval.symm.trans hdepart)⟩
  · rw [h.broker_eq hmove]
    exact (and_iff_left fun hc => hmove ⟨k, hc.2.1⟩).symm

end Reaction

/-! ## Whole runs -/

/-- In the next step the broker decides that a node has to leave. -/
def Session.Dismisses (s : Session World Payload) (node : EntityId) : Prop :=
  ∃ source, s.Decides node (.depart source)

variable {g : Regime} {s q : Session World Payload} {past : List (Session World Payload)}

theorem World.activeFogNodes_snapshot {w : World} (now : Time) :
    (w.snapshot now).activeFogNodes = w.activeCount := rfl

theorem World.activeCount_of_broker {w : World} (hb : w.registry.broker w.broker = .ok b) :
    w.activeCount = b.fogNodes.size := by
  unfold World.activeCount
  rw [hb]

/-- The broker dismisses a node when it is asked to look at it and decides so. -/
theorem Session.Reacts.dismisses_iff {e : Event Payload} {receiver : EntityId}
    (h : s.Reacts e receiver msg out t) (hb : s.state.registry.broker s.state.broker = .ok b) :
    s.Dismisses k ↔ receiver = s.state.broker ∧ msg = .processNodeMove k ∧
      ∃ source, s.state.registry.evaluate b k = .ok (.depart source) := by
  constructor
  · rintro ⟨source, ⟨d, hdelivers⟩, heval⟩
    obtain ⟨-, rfl, rfl⟩ := hdelivers.unique h.delivers
    exact ⟨rfl, rfl, source, by rw [← World.evaluate_of_broker hb, heval]⟩
  · rintro ⟨rfl, rfl, source, heval⟩
    exact ⟨source, ⟨e, h.delivers⟩, by rw [World.evaluate_of_broker hb, heval]⟩

/-- A step takes off the index whom it dismisses. -/
theorem Session.counted_afterStep {b' : Broker} (hs : Reachable g s)
    (hb : s.state.registry.broker s.state.broker = .ok b)
    (hb' : s.afterStep.state.registry.broker s.state.broker = .ok b') :
    k ∈ b'.fogNodes ↔ k ∈ b.fogNodes ∧ ¬ s.Dismisses k := by
  rcases Session.reacts_or_idles hs.orderly with ⟨e, receiver, msg, out, t, hreacts⟩ | hidles
  · rw [hreacts.registry] at hb'
    obtain ⟨b₀, hb₀, rfl⟩ := broker_touch_iff.1 hb'
    obtain rfl := Except.ok.inj (hb₀.symm.trans hb)
    rw [hreacts.reaction.counted_iff hs.catalogued hb, hreacts.dismisses_iff hb]
  · rw [hidles.registry] at hb'
    rw [← Except.ok.inj (hb.symm.trans hb')]
    refine (and_iff_left ?_).symm
    rintro ⟨source, hd⟩
    exact hidles.not_decides hd

/-- The broker counts the nodes that it has never dismissed. -/
theorem History.mem_fogNodes_iff (hs : History g past s)
    (hb : s.state.registry.broker s.state.broker = .ok b) :
    k ∈ b.fogNodes ↔ s.state.registry.kind k = .ok .fogNode ∧ ∀ q ∈ past, ¬ q.Dismisses k := by
  refine hs.invariant (P := fun past s => ∀ {b}, s.state.registry.broker s.state.broker = .ok b →
    (k ∈ b.fogNodes ↔ s.state.registry.kind k = .ok .fogNode ∧ ∀ q ∈ past, ¬ q.Dismisses k))
    ?_ ?_ ?_ hb
  · intro d s hd h b hb
    rw [(Builder.catalogued_of_build hd h).2 hb]
    simp
  · intro past s hs _ ih b' hb'
    have hr := hs.reachable.orderly
    obtain ⟨b, hb⟩ := kind_eq_broker_iff.1 hs.reachable.broker
    rw [Session.afterStep_broker hr] at hb'
    rw [Session.counted_afterStep hs.reachable hb hb', ih hb, Session.afterStep_kind hr,
      List.forall_mem_cons, and_assoc, and_comm (a := ¬ s.Dismisses k)]
  · intro past s s' hnudged ih b' hb'
    obtain ⟨t, ht, hregistry⟩ := hnudged.registry
    rw [hregistry, hnudged.broker] at hb'
    obtain ⟨b, hb, rfl⟩ := broker_touch_iff.1 hb'
    rw [ht.broker, ih hb, hregistry, kind_touch]

theorem Session.told_of_departs (hr : s.state.registry.Orderly) (hlive : s.state.registry.Lives k)
    (hk : s.afterStep.state.registry.StandsAt k .departed) : ∃ e, s.Delivers e k .nodeLeave := by
  obtain ⟨m, hm, hdeparted⟩ := hk
  have hgone : ¬ s.afterStep.state.registry.Lives k := fun h => (lives_iff hm).1 h hdeparted
  rcases Session.reacts_or_idles hr with ⟨e, receiver, msg, out, t, hreacts⟩ | hidles
  -- no other message makes a node depart
  · by_contra htold
    have hother : ¬ (msg = .nodeLeave ∧ receiver = k) := by
      rintro ⟨rfl, rfl⟩
      exact htold ⟨e, hreacts.delivers⟩
    rw [hreacts.registry, hreacts.reaction.lives_iff hother] at hgone
    exact hgone hlive
  · rw [hidles.registry] at hgone
    exact absurd hlive hgone

/-- A node departs when it is told to. -/
theorem History.told_of_departed (hs : History g past s)
    (hk : s.state.registry.StandsAt k .departed) :
    ∃ q ∈ past, q.state.registry.Lives k ∧ ∃ e, q.Delivers e k .nodeLeave := by
  refine hs.invariant (P := fun past s => s.state.registry.StandsAt k .departed →
    ∃ q ∈ past, q.state.registry.Lives k ∧ ∃ e, q.Delivers e k .nodeLeave) ?_ ?_ ?_ hk
  · rintro d s hd h ⟨n, hn, hdeparted⟩
    exact absurd hdeparted ((Builder.built_of_build hd.draft h).settled hn).2.1
  · intro past s hs _ ih hk
    have hr := hs.reachable.orderly
    rcases lives_or_departed ((Session.afterStep_kind hr k).symm.trans hk.kind) with hlive | hgone
    · exact ⟨s, List.mem_cons_self, hlive, Session.told_of_departs hr hlive hk⟩
    · obtain ⟨q, hq, htold⟩ := ih hgone
      exact ⟨q, List.mem_cons_of_mem _ hq, htold⟩
  · exact fun hnudged ih hk => ih (hnudged.standsAt_iff.1 hk)

/-- Who sends a node the message to leave is the broker, and it dismisses the node. -/
theorem Session.Posts.dismisses {e : Event Payload} {sender : EntityId} (hq : Reachable g q)
    (h : q.Posts e) (he : e.payload = .deliver sender k .nodeLeave) : q.Dismisses k := by
  obtain ⟨node, p, hdecides, o, ho, -, rfl, hmsg⟩ := h.decides hq he .nodeLeave
  cases p with
  | stay | ignore => cases ho
  | join | relocate =>
    obtain rfl := List.mem_singleton.1 ho
    cases hmsg
  | depart source =>
    obtain rfl := List.mem_singleton.1 ho
    exact ⟨source, hdecides⟩

/-- Whatever is posted and whatever fails: the broker counts the nodes that it has never dismissed,
and a departed node among them was told to leave by a message from outside. -/
theorem History.counted (hs : History .unrestricted past s) :
    ∃ b, s.state.registry.broker s.state.broker = .ok b ∧
      (∀ now, (s.state.snapshot now).activeFogNodes = b.fogNodes.size) ∧
      (∀ k, k ∈ b.fogNodes ↔
        s.state.registry.kind k = .ok .fogNode ∧ ∀ q ∈ past, ¬ q.Dismisses k) ∧
      ∀ k, k ∈ b.fogNodes → s.state.registry.StandsAt k .departed →
        ∃ q ∈ past, q.state.registry.Lives k ∧ ∃ e, q.Delivers e k .nodeLeave ∧
          ∀ p ∈ past, ¬ p.Posts e := by
  obtain ⟨b, hb⟩ := kind_eq_broker_iff.1 hs.reachable.broker
  refine ⟨b, hb, fun now => ?_, fun k => hs.mem_fogNodes_iff hb, fun k hk hdeparted => ?_⟩
  · rw [World.activeFogNodes_snapshot, World.activeCount_of_broker hb]
  · obtain ⟨q, hq, hlive, e, hdelivers⟩ := hs.told_of_departed hdeparted
    refine ⟨q, hq, hlive, e, hdelivers, fun p hp hposts => ?_⟩
    obtain ⟨sender, he⟩ := hdelivers.2
    exact ((hs.mem_fogNodes_iff hb).1 hk).2 p hp (hposts.dismisses (hs.reachable_of_mem hp) he)

namespace Crossing

/-- The broker still counts the neighbour that has left. -/
theorem counts_neighbour : ∃ b,
    without.state.registry.broker without.state.broker = .ok b ∧ neighbour ∈ b.fogNodes := by
  have hcounts : (without.state.registry.broker without.state.broker).toOption.map
      (fun b => decide (neighbour ∈ b.fogNodes)) = some true := by decide +kernel
  obtain ⟨b, hb, hin⟩ := Option.map_eq_some_iff.1 hcounts
  exact ⟨b, eq_ok_of_toOption hb, of_decide_eq_true hin⟩

end Crossing

/-- The neighbour was told from outside to leave. -/
theorem History.counted_neighbour :
    (∀ q ∈ [Crossing.farewell], ¬ q.Dismisses Crossing.neighbour) ∧
      ∃ q ∈ [Crossing.farewell], q.state.registry.Lives Crossing.neighbour ∧
        ∃ e, q.Delivers e Crossing.neighbour .nodeLeave ∧
          ∀ p ∈ [Crossing.farewell], ¬ p.Posts e := by
  have hs : History .unrestricted [Crossing.farewell] Crossing.without :=
    Crossing.history_of_admits trivial
  obtain ⟨b, hb, -, hcounts, htold⟩ := History.counted hs
  obtain ⟨b', hb', hin⟩ := Crossing.counts_neighbour
  obtain rfl := Except.ok.inj (hb.symm.trans hb')
  exact ⟨((hcounts _).1 hin).2, htold _ hin Crossing.standsAt_neighbour⟩

namespace Crossing

/-- The neighbour has departed, and the broker still counts it: it shows two nodes as active, of
which one has departed. -/
theorem counted_departed : Reachable .unrestricted without ∧
    without.state.registry.StandsAt neighbour .departed ∧
    (∃ b, without.state.registry.broker without.state.broker = .ok b ∧ neighbour ∈ b.fogNodes) ∧
    (∀ now, (without.state.snapshot now).activeFogNodes = 2) ∧
    (without.state.registry.fogNodes.filter fun n => !n.isDeparted).length = 1 := by
  have hshown : without.state.activeCount = 2 := by decide +kernel
  have hlive : (without.state.registry.fogNodes.filter fun n => !n.isDeparted).length = 1 := by
    decide +kernel
  exact ⟨(history_of_admits trivial).reachable, standsAt_neighbour, counts_neighbour,
    fun now => (World.activeFogNodes_snapshot now).trans hshown, hlive⟩

end Crossing

end FogNet
