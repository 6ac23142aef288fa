import FogNet.Proofs.Membership.Agreement
import FogNet.Proofs.Membership.Reaction
import FogNet.Proofs.Run.Traffic
import FogNet.Proofs.Topology.Construction

/-!
# The network at its start

Completing a network puts each node into the first puddle that covers it. What a finished network
starts with (`built_of_build`): the records agree, nothing is kept for strangers, nobody is in the
middle of a change, a node is listed by its owner and by nobody else, and what waits for delivery is
what was given and one timer for each mobile node.
-/

namespace FogNet

open Registry

namespace Registry

/-- Nobody is in the middle of a change or gone, and nodes are listed by their owners alone. -/
def Settled (r : Registry) : Prop :=
  ∀ ⦃k n⦄, r.fogNode k = .ok n →
    n.pending = none ∧ n.standing ≠ .departed ∧ ∀ a, r.Lists a k ↔ n.standing = .owned a

variable {r q : Registry} {head node k : EntityId} {h : PuddleHead} {n : FogNode}

/-- Taking in a node that is in no puddle leaves everybody settled. -/
theorem Settled.admitting (hr : r.Settled) (hh : r.puddleHead head = .ok h)
    (hn : r.fogNode node = .ok n) (hfree : n.standing = .unassigned) :
    (r.touch (r.admitting head node h n)).Settled := by
  intro k m' hm'
  obtain ⟨m, hm, rfl⟩ := fogNode_touch_iff.1 hm'
  obtain ⟨hpending, hlive, hlists⟩ := hr hm
  have hnew : node ∉ h.members := fun hin => by
    have := ((hr hn).2.2 head).1 ((lists_iff hh).2 hin)
    rw [hfree] at this
    cases this
  refine ⟨(pending_admitting k m).trans hpending, ?_, fun a => ?_⟩
  · rw [standing_admitting]
    split_ifs
    · exact nofun
    · exact hlive
  · rw [standing_admitting, lists_admitting_iff hh hnew, hlists]
    by_cases hk : k = node
    · subst hk
      rw [fogNode_inj hm hn, hfree, if_pos rfl]
      simp [eq_comm]
    · rw [if_neg hk]
      simp [hk]

/-- Growth leaves everybody settled. -/
theorem Settled.grown (hr : r.Orderly) (hs : r.Settled) (hq : Grown r q) : q.Settled := by
  intro k m hm
  rcases hq.node hm with ⟨n, hn, h1, h2, -⟩ | ⟨hk, hu1, hu2, -⟩
  · obtain ⟨hpending, hlive, hlists⟩ := hs hn
    exact ⟨h2.trans hpending, h1 ▸ hlive, fun a => by rw [hq.lists_iff, h1, hlists]⟩
  · refine ⟨hu2, by simp [hu1], fun a => ?_⟩
    rw [hq.lists_iff, hu1]
    exact iff_of_false (fun hl => hk (hr.enrolled.known hl)) nofun

end Registry

namespace Builder

open Change

variable {r q : Registry} {s : Settings} {broker : EntityId} {n m : FogNode}

/-- A network in which some nodes are still to be placed, one after the other. -/
structure Placing (r : Registry) (broker : EntityId) (l : List FogNode) : Prop where
  /-- All records agree. -/
  orderly : r.Orderly
  /-- Nothing is kept for strangers. -/
  pruned : r.Pruned
  /-- Nobody is in the middle of a change. -/
  settled : r.Settled
  /-- The broker is a broker. -/
  kind : r.kind broker = .ok .broker
  /-- The nodes come in the order of their numbers. -/
  ascending : l.Pairwise fun m n => m.id < n.id
  /-- They are in no puddle yet. -/
  free : ∀ n ∈ l, ∃ m, r.fogNode n.id = .ok m ∧ m.standing = .unassigned

variable {b : Broker} {head k : EntityId} {g : PuddleHead} {u : Unit} {l : List FogNode}

theorem Placing.tail (hr : Placing r broker (n :: l)) : Placing r broker l :=
  ⟨hr.orderly, hr.pruned, hr.settled, hr.kind, (List.pairwise_cons.1 hr.ascending).2,
    fun x hx => hr.free x (List.mem_cons_of_mem _ hx)⟩

theorem Placing.grown (hr : Placing r broker l) (hq : Grown r q) : Placing q broker l := by
  refine ⟨hq.orderly hr.orderly, hq.pruned hr.pruned, hr.settled.grown hr.orderly hq,
    hq.kind hr.kind, hr.ascending, fun x hx => ?_⟩
  obtain ⟨y, hy, hfree⟩ := hr.free x hx
  obtain ⟨z, hz, hsame⟩ := hq.node_of_old hy
  exact ⟨z, hz, hsame.1.trans hfree⟩

/-- A node that is still to be placed may join any head. -/
theorem Placing.admitting (hr : Placing r broker (n :: l)) (hg : r.puddleHead head = .ok g)
    (hm : r.fogNode n.id = .ok m) (hnew : n.id ∉ g.members) (hfree : m.standing = .unassigned) :
    Placing (r.touch (r.admitting head n.id g m)) broker l := by
  obtain ⟨hn, hrest⟩ := List.pairwise_cons.1 hr.ascending
  refine ⟨Orderly.admitting hr.orderly hg hm hnew (by simp [hfree]), hr.pruned.admitting,
    hr.settled.admitting hg hm hfree, (kind_touch _ _ _).trans hr.kind, hrest, fun x hx => ?_⟩
  obtain ⟨y, hy, hyfree⟩ := hr.free x (List.mem_cons_of_mem _ hx)
  refine ⟨_, fogNode_touch hy, ?_⟩
  rwa [standing_admitting, if_neg (Nat.ne_of_gt (hn x hx))]

/-- A node for which the broker finds no head stays where it is. Otherwise it joins that head, and
then a link between the two is all that is left. -/
theorem Placing.placeInitially_cases (hr : Placing r broker (n :: l)) (s : Settings)
    (hb : r.broker broker = .ok b) (hm : r.fogNode n.id = .ok m)
    (hfree : m.standing = .unassigned) :
    (r.findHead b n.level n.position = .ok none ∧ placeInitially s broker n r = .ok () r) ∨
      ∃ head g fresh, r.findHead b n.level n.position = .ok (some head) ∧
        r.puddleHead head = .ok g ∧ n.id ∉ g.members ∧
        join head n.id r = .ok fresh (r.touch (r.admitting head n.id g m)) ∧
        placeInitially s broker n r = (if s.autoLinkMembers then
          discard (addLink broker n.id head s.memberLinkLatency s.memberLinkBandwidth)
          else pure () : Change Unit) (r.touch (r.admitting head n.id g m)) := by
  have hread : ∀ {found}, r.findHead b n.level n.position = .ok found →
      (r.broker broker >>= fun b => r.findHead b n.level n.position) = .ok found := by
    intro found hfound
    rw [hb]
    exact hfound
  rcases findHead_spec hr.orderly.wired hb n.level n.position with hnone | ⟨head, g, hsome, hg, -⟩
  · exact .inl ⟨hnone, (bind_of_ok (read_of_ok (hread hnone))).trans rfl⟩
  · have hnew : n.id ∉ g.members := by
      intro hin
      have howned := ((hr.settled hm).2.2 head).1 ((lists_iff hg).2 hin)
      rw [hfree] at howned
      cases howned
    have hlive : m.standing ≠ .departed := by simp [hfree]
    have hjoin := join_of_fresh hg hm hnew (isDeparted_eq_false_iff.2 hlive)
      (fun k hk => hr.orderly.enrolled.node_of_mem hg hk) (hr.orderly.enrolled.parent hg)
    exact .inr ⟨head, g, _, hsome, hg, hnew, hjoin,
      (bind_of_ok (read_of_ok (hread hsome))).trans (bind_of_ok (discard_of_ok hjoin))⟩

/-- A node that has been placed is where it was or in the puddle that the broker has found, and
nothing else has happened but growth. -/
theorem Placing.grown_of_ok (hr : Placing r broker (n :: l))
    (h : placeInitially s broker n r = .ok u q) :
    (q = r ∧ ∃ b, r.broker broker = .ok b ∧ r.findHead b n.level n.position = .ok none) ∨
      ∃ b head g m, r.broker broker = .ok b ∧
      r.findHead b n.level n.position = .ok (some head) ∧ r.puddleHead head = .ok g ∧
      r.fogNode n.id = .ok m ∧ n.id ∉ g.members ∧ m.standing = .unassigned ∧
      Grown (r.touch (r.admitting head n.id g m)) q := by
  obtain ⟨b, hb⟩ := kind_eq_broker_iff.1 hr.kind
  obtain ⟨m, hm, hfree⟩ := hr.free n List.mem_cons_self
  rcases hr.placeInitially_cases s hb hm hfree with
    ⟨hnone, hplace⟩ | ⟨head, g, fresh, hfound, hg, hnew, -, hplace⟩
  · rw [hplace] at h
    cases h
    exact .inl ⟨rfl, b, hb, hnone⟩
  · refine .inr ⟨b, head, g, m, hb, hfound, hg, hm, hnew, hfree, ?_⟩
    have hjoined := hr.admitting hg hm hnew hfree
    have hlink := grown_addLink broker n.id head s.memberLinkLatency s.memberLinkBandwidth
      hjoined.orderly.wired hjoined.orderly.enrolled.copied
    rw [hplace] at h
    split_ifs at h
    · cases hadd : addLink broker n.id head s.memberLinkLatency s.memberLinkBandwidth
        (r.touch (r.admitting head n.id g m)) with
      | error fault p =>
        rw [discard_of_error hadd] at h
        cases h
      | ok id p =>
        rw [discard_of_ok hadd] at h
        cases h
        rwa [hadd] at hlink
    · cases h
      exact .refl hjoined.orderly.wired hjoined.orderly.enrolled.copied

theorem Placing.next (hr : Placing r broker (n :: l)) (h : placeInitially s broker n r = .ok u q) :
    Placing q broker l := by
  rcases hr.grown_of_ok h with ⟨rfl, -⟩ | ⟨b, head, g, m, -, -, hg, hm, hnew, hfree, hgrown⟩
  · exact hr.tail
  · exact (hr.admitting hg hm hnew hfree).grown hgrown

/-- The head that the broker finds lists the node, and nothing else is new in any list. -/
theorem Placing.lists_iff (hr : Placing r broker (n :: l))
    (h : placeInitially s broker n r = .ok u q) (hb : r.broker broker = .ok b) {a : EntityId} :
    q.Lists a k ↔ r.Lists a k ∨ k = n.id ∧ r.findHead b n.level n.position = .ok (some a) := by
  rcases hr.grown_of_ok h with
    ⟨rfl, c, hc, hnone⟩ | ⟨c, head, g, m, hc, hfound, hg, -, hnew, -, hgrown⟩
  · obtain rfl := Except.ok.inj (hb.symm.trans hc)
    rw [hnone]
    exact (or_iff_left fun h => nomatch h.2).symm
  · obtain rfl := Except.ok.inj (hb.symm.trans hc)
    rw [hgrown.lists_iff, lists_admitting_iff hg hnew, hfound, Except.ok.injEq, Option.some.injEq,
      and_comm, eq_comm (a := a)]

/-- Placing all nodes leaves everybody settled. -/
theorem Placing.forM (hr : Placing r broker l) (h : l.forM (placeInitially s broker) r = .ok u q) :
    Placing q broker [] := by
  induction l generalizing r with
  | nil =>
    cases h
    exact hr
  | cons n rest ih =>
    obtain ⟨v, p, hplace, h⟩ := forM_cons_eq_ok_iff.1 h
    exact ih (hr.next hplace) h

/-! ## The first events -/

/-- What waits for delivery at the start, with its numbers. -/
theorem pending_firstEvents (settings : Settings) (messages : List (Time × Payload))
    (r : Registry) : (firstEvents settings messages r).queue.pending.Perm
      (numbered (messages ++ (r.fogNodes.filter (·.motion.mobile)).map fun n =>
        (settings.locationUpdateInterval, timer n)) 0) := by
  obtain ⟨hmessages, hnext⟩ :=
    Simulation.foldl_schedule Prod.fst Prod.snd messages (Simulation.start : Simulation Payload)
  obtain ⟨htimers, -⟩ := Simulation.foldl_schedule (fun _ => settings.locationUpdateInterval) timer
    (r.fogNodes.filter (·.motion.mobile))
    (messages.foldl (fun sim e => sim.schedule e.1 e.2) Simulation.start)
  rw [hnext] at htimers
  rw [List.map_id'] at hmessages
  rw [numbered_append]
  exact htimers.trans (hmessages.append_right _)

/-- What waits at the start: the timers of all nodes that move, and what was given. -/
theorem entries_firstEvents (s : Settings) (scripted : List (Time × Payload)) (r : Registry) :
    (firstEvents s scripted r).queue.entries.Perm
      ((r.fogNodes.filter (·.motion.mobile)).map (fun n => (s.locationUpdateInterval, timer n)) ++
        scripted) := by
  have hpending := (pending_firstEvents s scripted r).map fun e => (e.time, e.payload)
  rw [map_entry_numbered] at hpending
  exact hpending.trans List.perm_append_comm

/-! ## Finished networks -/

/-- What a network is like when a run starts. -/
structure Built (admits : Time → Payload → Prop) (s : Session World Payload) : Prop where
  /-- All records agree. -/
  orderly : s.state.registry.Orderly
  /-- Nothing is kept for strangers. -/
  pruned : s.state.registry.Pruned
  /-- Nobody is in the middle of a change. -/
  settled : s.state.registry.Settled
  /-- The broker is a broker. -/
  broker : s.state.registry.kind s.state.broker = .ok .broker
  /-- Timers and admitted messages wait for delivery. -/
  payloads : ∀ p ∈ s.simulation.queue.payloads,
    (∃ k n, s.state.registry.fogNode k = .ok n ∧ p = .deliver k k .updateLocation) ∨
      ∃ due, admits due p

/-- A finished network is what placing all nodes makes of the builder, with its first events. -/
theorem placed_of_build {b : Builder} {s : Session World Payload} (h : b.build = .ok s) :
    b.registry.fogNodes.forM (placeInitially b.settings b.broker) b.registry =
        .ok () s.state.registry ∧
      s.state.broker = b.broker ∧ s.state.settings = b.settings ∧
      s.simulation = firstEvents b.settings b.scripted s.state.registry := by
  unfold build at h
  split at h
  · cases h
  · split at h
    · cases h
    · rename_i hplace
      obtain rfl := Except.ok.inj h
      exact ⟨hplace, rfl, rfl, rfl⟩

/-- The routing graph of a finished network is that of its links. -/
theorem graph_of_build {b : Builder} {s : Session World Payload} (h : b.build = .ok s) :
    s.state.graph = .ofLinks s.state.registry.links := by
  unfold build at h
  split at h
  · cases h
  · split at h
    · cases h
    · obtain rfl := Except.ok.inj h
      rfl

/-- While nobody has been placed, everybody is still to be placed. -/
theorem Draft.placing {admits : Time → Payload → Prop} {b : Builder} (hb : b.Draft admits) :
    Placing b.registry b.broker b.registry.fogNodes := by
  refine ⟨hb.orderly, hb.pruned, fun k n hn => ?_, hb.broker,
    ascending_fogNodes hb.orderly.wired.toNumbered, fun n hn => ?_⟩
  · obtain ⟨h1, h2, -⟩ := hb.unplaced hn
    exact ⟨h2, by simp [h1], fun a => iff_of_false hb.unlisted (by simp [h1])⟩
  · obtain ⟨k, hk⟩ := mem_fogNodes_iff.1 hn
    exact ⟨n, hb.orderly.wired.id_fogNode hk ▸ hk, (hb.unplaced hk).1⟩

theorem built_of_build {admits : Time → Payload → Prop} {b : Builder} {s : Session World Payload}
    (hb : b.Draft admits) (h : b.build = .ok s) : Built admits s := by
  obtain ⟨hplace, hbroker, -, hevents⟩ := placed_of_build h
  have hplaced := hb.placing.forM hplace
  refine ⟨hplaced.orderly, hplaced.pruned, hplaced.settled, hbroker ▸ hplaced.kind,
    fun p hp => ?_⟩
  rw [hevents, payloads_eq_map_entries] at hp
  obtain ⟨e, he, rfl⟩ := List.mem_map.1 hp
  rcases List.mem_append.1 ((entries_firstEvents _ _ _).mem_iff.1 he) with he | he
  · obtain ⟨n, hn, rfl⟩ := List.mem_map.1 he
    obtain ⟨k, hk⟩ := mem_fogNodes_iff.1 (List.mem_filter.1 hn).1
    refine .inl ⟨k, n, hk, ?_⟩
    show timer n = _
    rw [timer, hplaced.orderly.wired.id_fogNode hk]
  · exact .inr ⟨e.1, hb.scripted e he⟩

end Builder

end FogNet
