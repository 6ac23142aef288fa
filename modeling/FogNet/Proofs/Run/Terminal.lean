import FogNet.Proofs.Routing
import FogNet.Proofs.Run.Departure
import FogNet.Proofs.Run.Sending

/-!
# Departed for good

A node that has departed stays departed, whatever is posted from outside and whatever fails. Stale
messages about it may still be delivered in any order, and each handler passes it over: no list
takes it up again, no message about its membership is sent, and no route leads over it
(`Reachable.parted_of_departed`). What carries the argument from step to step is that a departed
node waits at most for its last head (`Registry.Buried`).
-/

namespace FogNet

open Registry

variable {c : Settings} {broker id k a : EntityId} {now : Time} {r : Registry} {msg : Message}
  {out : List Outgoing} {t : Touch} {n : FogNode}

/-! ## One step -/

/-- Nodes that have departed wait at most for their last head. -/
def Registry.Buried (r : Registry) : Prop :=
  ∀ ⦃k n⦄, r.fogNode k = .ok n → n.standing = .departed → n.Gone

namespace Reaction

/-- A node that has gone stays as it is, no list takes it up and nobody sends an errand of it. -/
theorem stays_gone (h : Reaction c broker now r id msg out t) (hn : r.fogNode k = .ok n)
    (hgone : n.Gone) : (t.node k n).Gone ∧ (∀ a, (r.touch t).Lists a k → r.Lists a k) ∧
      errands k (out.map (·.payload)) = [] := by
  obtain ⟨hsilent, ⟨ht, -⟩ | ⟨-, g, hg, rfl⟩⟩ := h.of_gone hn hgone
  · obtain ⟨hs, hp⟩ := ht.node hn
    exact ⟨hgone.congr hs hp, fun a => (ht.lists a).1, hsilent⟩
  · exact ⟨gone_outtake hgone, fun a hl => ((lists_outtake_iff hg).1 hl).1, hsilent⟩

/-- Whoever departs waits at most for the last head. -/
theorem buried (h : Reaction c broker now r id msg out t) (hr : r.Buried) :
    (r.touch t).Buried := by
  intro k m hm hdeparted
  obtain ⟨n, hn, rfl⟩ := fogNode_touch_iff.1 hm
  by_cases hlive : r.Lives k
  · have hleft : msg = .nodeLeave ∧ id = k := by
      by_contra hstay
      exact (Registry.lives_iff hm).1 ((h.lives_iff hstay).2 hlive) hdeparted
    obtain ⟨rfl, rfl⟩ := hleft
    obtain ⟨x, hx, -, rfl, -⟩ := h.of_nodeLeave hlive
    rw [fogNode_inj hn hx]
    exact gone_departing id x
  · have hgone : n.standing = .departed := by
      by_contra hne
      exact hlive ⟨n, hn, hne⟩
    exact (h.stays_gone hn (hr hn hgone)).1

end Reaction

theorem Touch.Slight.buried (ht : t.Slight) (hr : r.Buried) : (r.touch t).Buried := by
  intro k m hm hdeparted
  obtain ⟨n, hn, rfl⟩ := fogNode_touch_iff.1 hm
  obtain ⟨hs, -, hp⟩ := ht.node k n
  exact (hr hn (hs ▸ hdeparted)).congr hs hp

/-! ## Whole runs -/

variable {g : Regime} {s s' q : Session World Payload}

theorem Session.Next.buried (hr : s.state.registry.Orderly) (h : s.Next g s')
    (hs : s.state.registry.Buried) : s'.state.registry.Buried := by
  rcases h.cases with rfl | hnudged
  · rcases Session.reacts_or_idles hr with ⟨e, receiver, msg, out, t, hreacts⟩ | hidles
    · rw [hreacts.registry]
      exact hreacts.reaction.buried hs
    · rwa [hidles.registry]
  · obtain ⟨t, ht, hregistry⟩ := hnudged.registry
    rw [hregistry]
    exact ht.buried hs

theorem Reachable.buried (hs : Reachable g s) : s.state.registry.Buried := by
  refine hs.invariant (fun hb h k n hn hdeparted => ?_) fun hs h ih => h.buried hs.orderly ih
  exact absurd hdeparted ((Builder.built_of_build hb.draft h).settled hn).2.1

/-- A departed node stays departed in one move, and no list takes it up. -/
theorem Reachable.departed_next (hs : Reachable g s) (h : s.Next g s')
    (hk : s.state.registry.StandsAt k .departed) : s'.state.registry.StandsAt k .departed ∧
      ∀ a, s'.state.registry.Lists a k → s.state.registry.Lists a k := by
  obtain ⟨n, hn, hdeparted⟩ := hk
  rcases h.cases with rfl | hnudged
  · rcases Session.reacts_or_idles hs.orderly with ⟨e, receiver, msg, out, t, hreacts⟩ | hidles
    · obtain ⟨hgone, hlists, -⟩ := hreacts.reaction.stays_gone hn (hs.buried hn hdeparted)
      rw [hreacts.registry]
      exact ⟨⟨_, fogNode_touch hn, hgone.standing⟩, hlists⟩
    · rw [hidles.registry]
      exact ⟨⟨n, hn, hdeparted⟩, fun a hl => hl⟩
  · obtain ⟨t, ht, hregistry⟩ := hnudged.registry
    rw [hregistry]
    exact ⟨⟨_, fogNode_touch hn, (ht.node k n).1.trans hdeparted⟩, fun a => ht.lists_iff.1⟩

theorem Reachable.departed_onward (hq : Reachable g q) (h : q.Onward g s)
    (hk : q.state.registry.StandsAt k .departed) : s.state.registry.StandsAt k .departed ∧
      ∀ a, s.state.registry.Lists a k → q.state.registry.Lists a k := by
  induction h with
  | refl => exact ⟨hk, fun a hl => hl⟩
  | tail h hnext ih =>
    obtain ⟨hdeparted, hlists⟩ := (hq.onward h).departed_next hnext ih.1
    exact ⟨hdeparted, fun a hl => ih.2 a (hlists a hl)⟩

/-- No step sends an errand of a departed node. -/
theorem Reachable.silent (hs : Reachable g s) (hk : s.state.registry.StandsAt k .departed)
    {e : Event Payload} (he : e ∈ s.afterStep.simulation.queue.pending)
    (herrand : e.payload.errand? k ≠ none) : e ∈ s.simulation.queue.pending := by
  obtain ⟨n, hn, hdeparted⟩ := hk
  rcases Session.reacts_or_idles hs.orderly with ⟨d, receiver, msg, out, t, hreacts⟩ | hidles
  · rcases hreacts.queue.pending e he with hold | ⟨-, o, ho, hpayload⟩
    · exact hold
    · obtain ⟨-, -, hsilent⟩ := hreacts.reaction.stays_gone hn (hs.buried hn hdeparted)
      rw [hpayload] at herrand
      exact absurd (if_neg (errands_eq_nil_iff.1 hsilent o ho)) herrand
  · exact (hidles.queue.pending e he).resolve_right fun h => False.elim h.2

/-- What has become of a node in a session, once it had departed in an earlier one. -/
structure Session.Parted (q s : Session World Payload) (k : EntityId) : Prop where
  /-- It has departed and has no buddies. -/
  departed : ∃ n, s.state.registry.fogNode k = .ok n ∧ n.standing = .departed ∧ n.buddies = .empty
  /-- Only heads that listed it then list it now. -/
  lists : ∀ a, s.state.registry.Lists a k → q.state.registry.Lists a k
  /-- No route leads over it, or begins or ends there. -/
  route : ∀ {source target path}, s.state.route source target = some path →
    source ≠ k ∧ target ≠ k ∧ k ∉ path
  /-- It is no first hop of a route, which neither begins nor ends there. -/
  nextHop : ∀ {source target hop}, s.state.nextHop source target = some hop →
    source ≠ k ∧ target ≠ k ∧ hop ≠ k
  /-- No message about its membership is sent in the next step. -/
  silent : ∀ e ∈ s.afterStep.simulation.queue.pending, e.payload.errand? k ≠ none →
    e ∈ s.simulation.queue.pending

theorem World.isRoutable_of_departed {w : World} (hn : w.registry.fogNode k = .ok n)
    (hdeparted : n.standing = .departed) : w.isRoutable k = false := by
  unfold World.isRoutable
  rw [hn]
  simp [isDeparted_eq_true_iff.2 hdeparted]

/-- Whatever is posted from outside and whatever fails: a node that has departed has departed for
good. -/
theorem Reachable.parted_of_departed (hq : Reachable .unrestricted q)
    (hs : q.Onward .unrestricted s) (hk : q.state.registry.StandsAt k .departed) :
    q.Parted s k := by
  have hreachable := hq.onward hs
  obtain ⟨⟨n, hn, hdeparted⟩, hlists⟩ := hq.departed_onward hs hk
  have hroutable := World.isRoutable_of_departed hn hdeparted
  refine ⟨⟨n, hn, hdeparted, SortedSet.ext_mem fun b => ?_⟩, hlists,
    World.not_mem_of_route hroutable, World.ne_of_nextHop hroutable,
    fun e he => hreachable.silent ⟨n, hn, hdeparted⟩ he⟩
  refine iff_of_false (fun hb => ?_) (SortedSet.not_mem_empty b)
  exact (lives_iff hn).1 (hreachable.orderly.befriended.living ⟨n, hn, hb⟩) hdeparted

namespace Crossing

/-- The east is asked to take in the neighbour that has left. -/
def recalled : Session World Payload :=
  { without with
    simulation := without.simulation.schedule 2 (.deliver 1 east (.joinPuddle neighbour)) }

/-- The network when the west has struck off the neighbour and the east has got the request. -/
def unmoved : Session World Payload := recalled.afterStep.afterStep

theorem onward_unmoved : without.Onward .unrestricted unmoved := by
  have hrecalled : without.Next .unrestricted recalled := .posted trivial
  exact ((Relation.ReflTransGen.single hrecalled).tail (.afterStep fun _ => trivial)).tail
    (.afterStep fun _ => trivial)

theorem reachable_without : Reachable .unrestricted without :=
  (history_of_admits trivial).reachable

end Crossing

/-- The request to take the departed neighbour in has been delivered, and changes nothing. -/
theorem Reachable.parted_neighbour :
    Crossing.unmoved.state.trace.back?.map (·.message) =
      some (.joinPuddle Crossing.neighbour) ∧
      Crossing.without.Parted Crossing.unmoved Crossing.neighbour := by
  refine ⟨by decide +kernel, ?_⟩
  exact parted_of_departed Crossing.reachable_without Crossing.onward_unmoved
    Crossing.standsAt_neighbour

end FogNet
