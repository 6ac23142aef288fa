import FogNet.Proofs.Routing.Links
import FogNet.Proofs.Routing.Search
import FogNet.Proofs.Run.Catalogue
import FogNet.Proofs.Run.History
import FogNet.Proofs.Run.Sending
import FogNet.Proofs.Topology.Outset

/-!
# Routes and the links they take

The routing graph is fixed when a network is finished, while latencies and queues are read from the
links as they are. The two never part: in every reachable session the graph is that of the links as
they were added (`Reachable.graph_eq`), because nothing that happens during a run changes the ends
of a link. So every hop of a route has a link, and whoever adds something up over a route finds all
its links (`World.Routed`). As long as no link has been measured, the latencies found there are the
weights of the graph.
-/

namespace FogNet

open Registry

variable {r : Registry} {t : Touch} {k source target : EntityId} {w : World} {l : Link}
  {path : List EntityId}

/-! ## Links under touches -/

/-- What a touch leaves alone of every link stays the same all along the list of links. -/
theorem Registry.map_links_touch {β : Type} {f : Link → β} (hf : ∀ k l, f (t.link k l) = f l) :
    (r.touch t).links.map f = r.links.map f := by
  have hentries : ∀ es : List (Nat × Entity),
      (((es.map fun e => (e.1, t.entity e.1 e.2)).map (·.2)).filterMap Entity.link?).map f =
        ((es.map (·.2)).filterMap Entity.link?).map f := by
    intro es
    induction es with
    | nil => rfl
    | cons e rest ih =>
      obtain ⟨k, e⟩ := e
      cases e with
      | link l => exact congrArg₂ List.cons (hf k l) ih
      | fogNode | puddleHead | broker => exact ih
  exact hentries r.entities.entries

/-- Only measuring changes a link. -/
theorem Reaction.link_eq {c : Settings} {broker id : EntityId} {now : Time} {msg : Message}
    {out : List Outgoing} (h : Reaction c broker now r id msg out t) (hmsg : msg ≠ .updateLatency)
    (k : EntityId) (l : Link) : t.link k l = l := by
  cases h with
  | ignores | rests | moves | isGone | departs | misses | keeps => rfl
  | takesIn | takesOver | picksUp =>
    show (r.intake _ _ _ _).link k l = l
    unfold Registry.intake
    split_ifs <;> rfl
  | strikesOff =>
    show (r.outtake _ _ _ _).link k l = l
    unfold Registry.outtake
    split_ifs <;> rfl
  | @places _ _ _ p => cases p <;> rfl
  | measures => exact absurd rfl hmsg

/-! ## Sums over routes -/

namespace World

/-- The first link that joins two entities. -/
def linkOn (w : World) (hop : EntityId × EntityId) : Option Link :=
  w.registry.links.find? fun l => l.connects hop.1 hop.2

/-- Adding up over the links of some hops, which are looked up by their numbers, is adding up over
the links found for the hops. -/
theorem foldlM_links (hw : w.registry.Wired) (cost : EntityId → Link → Float)
    (hops : List (EntityId × EntityId)) (total : Float) :
    ((hops.mapM fun hop => (w.linkBetween hop.1 hop.2).map fun link => (link, hop.1)).bind
      fun used => used.foldlM (fun total hop => (w.registry.link hop.1).toOption.map fun l =>
        total + cost hop.2 l) total) =
    hops.foldlM (fun total hop => (w.linkOn hop).map fun l => total + cost hop.1 l) total := by
  induction hops generalizing total with
  | nil => rfl
  | cons hop rest ih =>
    rw [List.mapM_cons, List.foldlM_cons]
    have hlink : w.linkBetween hop.1 hop.2 = (w.linkOn hop).map (·.id) := rfl
    rw [hlink]
    cases hl : w.linkOn hop with
    | none => rfl
    | some l =>
      have hstored : w.registry.link l.id = .ok l := by
        obtain ⟨k, hk⟩ := mem_links_iff.1 (List.mem_of_find?_eq_some hl)
        rwa [show l.id = k from hw.numbered (link_eq_ok_iff.1 hk)]
      have hih := ih (total + cost hop.1 l)
      cases hrest : rest.mapM fun hop =>
          (w.linkBetween hop.1 hop.2).map fun link => (link, hop.1) with
      | none =>
        rw [hrest] at hih
        exact hih
      | some used =>
        rw [hrest] at hih
        refine Eq.trans ?_ hih
        show (some ((l.id, hop.1) :: used)).bind _ = _
        rw [Option.bind_some, List.foldlM_cons, hstored]
        rfl

theorem sumOverRoute_eq (hw : w.registry.Wired) (cost : EntityId → Link → Float) :
    w.sumOverRoute source target cost = (w.route source target).bind fun path =>
      (Graph.hops path).foldlM (fun total hop => (w.linkOn hop).map fun l =>
        total + cost hop.1 l) 0 := by
  unfold sumOverRoute routeHops
  cases w.route source target with
  | none => rfl
  | some path => exact foldlM_links hw cost (Graph.hops path) 0

theorem isSome_foldlM_links (cost : EntityId → Link → Float) {hops : List (EntityId × EntityId)}
    (hall : ∀ hop ∈ hops, ∃ l, w.linkOn hop = some l) (total : Float) :
    (hops.foldlM (fun total hop => (w.linkOn hop).map fun l =>
      total + cost hop.1 l) total).isSome = true := by
  induction hops generalizing total with
  | nil => rfl
  | cons hop rest ih =>
    obtain ⟨⟨l, hl⟩, hrest⟩ := List.forall_mem_cons.1 hall
    rw [List.foldlM_cons, hl]
    exact ih hrest _

/-! ## What routes promise -/

/-- A hop takes the lowest link between its two ends, from the end it starts at. -/
structure Takes (w : World) (hop used : EntityId × EntityId) : Prop where
  /-- Traffic enters the link where the hop starts. -/
  sender : used.2 = hop.1
  /-- The link joins the two ends. -/
  joins : ∃ l, w.registry.link used.1 = .ok l ∧ l.connects hop.1 hop.2 = true
  /-- No link with a lower number does. -/
  lowest : ∀ k l, w.registry.link k = .ok l → l.connects hop.1 hop.2 = true → used.1 ≤ k

/-- Between two entities there is a route if and only if it has a latency and a delay for every
number of bytes, and each hop of the route takes a link. -/
structure Routed (w : World) (source target : EntityId) : Prop where
  /-- Routes have latencies. -/
  latency : (w.route source target).isSome ↔ (w.pathLatency source target).isSome
  /-- Routes have delays. -/
  delay : ∀ bytes, (w.pathLatency source target).isSome ↔
    (w.transferDelay source target bytes).isSome
  /-- Each hop takes a link. -/
  hops : ∀ path, w.route source target = some path → ∃ used,
    w.routeHops source target = some used ∧ List.Forall₂ w.Takes (Graph.hops path) used

/-- The first link found has the lowest number. -/
theorem takes_of_linkOn (hw : w.registry.Wired) {hop : EntityId × EntityId}
    (hl : w.linkOn hop = some l) : w.Takes hop (l.id, hop.1) := by
  have hnumber : ∀ {k m}, w.registry.link k = .ok m → m.id = k := fun hm =>
    hw.numbered (link_eq_ok_iff.1 hm)
  unfold linkOn at hl
  have hjoins := List.find?_some hl
  refine ⟨rfl, ⟨l, ?_, hjoins⟩, fun k m hm hconnects => ?_⟩
  · obtain ⟨k, hk⟩ := mem_links_iff.1 (List.mem_of_find?_eq_some hl)
    rwa [show l.id = k from hnumber hk]
  · obtain ⟨-, before, after, hlinks, hbefore⟩ := List.find?_eq_some_iff_append.1 hl
    have hascending := ascending_links hw.toNumbered
    have hmem := mem_links_iff.2 ⟨k, hm⟩
    rw [hlinks] at hascending hmem
    rw [← hnumber hm]
    rcases List.mem_append.1 hmem with hmem | hmem
    · have := hbefore m hmem
      rw [hconnects] at this
      cases this
    · rcases List.mem_cons.1 hmem with rfl | hmem
      · exact Nat.le_refl _
      · exact Nat.le_of_lt
          ((List.pairwise_cons.1 (List.pairwise_append.1 hascending).2.1).1 m hmem)

/-- The numbers found for some hops. -/
theorem exists_used (hw : w.registry.Wired) {hops : List (EntityId × EntityId)}
    (hall : ∀ hop ∈ hops, ∃ l, w.linkOn hop = some l) :
    ∃ used, (hops.mapM fun hop => (w.linkBetween hop.1 hop.2).map fun link => (link, hop.1)) =
      some used ∧ List.Forall₂ w.Takes hops used := by
  induction hops with
  | nil => exact ⟨[], rfl, .nil⟩
  | cons hop rest ih =>
    obtain ⟨⟨l, hl⟩, hrest⟩ := List.forall_mem_cons.1 hall
    obtain ⟨used, hused, htakes⟩ := ih hrest
    refine ⟨(l.id, hop.1) :: used, ?_, .cons (takes_of_linkOn hw hl) htakes⟩
    have hlink : w.linkBetween hop.1 hop.2 = some l.id := by
      show (w.linkOn hop).map (·.id) = _
      rw [hl]
      rfl
    rw [List.mapM_cons, hlink, hused]
    rfl

/-- If all hops of all routes have links, routes promise what they should. -/
theorem routed_of_links (hw : w.registry.Wired)
    (hall : ∀ path, w.route source target = some path →
      ∀ hop ∈ Graph.hops path, ∃ l, w.linkOn hop = some l) : w.Routed source target := by
  have hsome : ∀ cost, (w.sumOverRoute source target cost).isSome =
      (w.route source target).isSome := by
    intro cost
    rw [sumOverRoute_eq hw]
    cases hroute : w.route source target with
    | none => rfl
    | some path => exact isSome_foldlM_links cost (hall path hroute) 0
  refine ⟨by rw [pathLatency, hsome], fun bytes => by rw [pathLatency, transferDelay, hsome, hsome],
    fun path hroute => ?_⟩
  obtain ⟨used, hused, htakes⟩ := exists_used hw (hall path hroute)
  refine ⟨used, ?_, htakes⟩
  rw [routeHops, hroute]
  exact hused

end World

/-! ## Runs -/

variable {g : Regime} {s s' : Session World Payload} {past : List (Session World Payload)}

/-- The routing graph is that of the links as they were added. -/
theorem Reachable.graph_eq (hs : Reachable g s) :
    s.state.graph = .ofLinks (s.state.registry.links.map Link.original) := by
  obtain ⟨past, hs⟩ := hs.history
  refine hs.invariant
    (P := fun _ s => s.state.graph = .ofLinks (s.state.registry.links.map Link.original)) ?_ ?_ ?_
  · intro b s hb h
    have hpristine : ∀ l ∈ s.state.registry.links, l.original = id l := by
      intro l hl
      obtain ⟨k, hk⟩ := mem_links_iff.1 hl
      exact (Builder.pristine_of_build hb h).link hk
    rw [List.map_congr_left hpristine, List.map_id]
    exact Builder.graph_of_build h
  · intro past s hs _ ih
    rw [Session.afterStep_graph, ih]
    rcases Session.reacts_or_idles hs.reachable.orderly with
      ⟨e, receiver, msg, out, t, hreacts⟩ | hidles
    · rw [hreacts.registry,
        map_links_touch fun k l => (hreacts.reaction.faithful.link k l).original]
    · rw [hidles.registry]
  · intro past s s' hnudged ih
    obtain ⟨t, ht, hregistry⟩ := hnudged.registry
    rw [hnudged.graph, ih, hregistry, map_links_touch fun k l => (ht.faithful.link k l).original]

/-- The first link on a hop is the first that was added there. -/
theorem World.map_linkOn (w : World) (hop : EntityId × EntityId) :
    (w.linkOn hop).map Link.original =
      (w.registry.links.map Link.original).find? fun l => l.connects hop.1 hop.2 := by
  rw [List.find?_map]
  rfl

/-- Every hop of a route has a link. -/
theorem Reachable.exists_linkOn (hs : Reachable g s) (h : s.state.route source target = some path) :
    ∀ hop ∈ Graph.hops path, ∃ l, s.state.linkOn hop = some l := by
  intro hop hhop
  have hroute := (Graph.shortestPath_eq_some_iff.1 h).route
  have haround := hroute.forall_mem_hops hop hhop
  rw [hs.graph_eq, Graph.mem_around_ofLinks] at haround
  obtain ⟨l, hl, hconnects⟩ := haround
  obtain ⟨m, hm, rfl⟩ := List.mem_map.1 hl
  exact Option.isSome_iff_exists.1 (List.find?_isSome.2 ⟨m, hm, hconnects⟩)

/-- A link that was never measured has the latency it was added with. -/
theorem History.latency_eq (hs : History g past s)
    (hpast : ∀ q ∈ past, ∀ e id, ¬ q.Delivers e id .updateLatency) :
    ∀ k l, s.state.registry.link k = .ok l → l.latency = l.baseLatency := by
  refine hs.invariant (P := fun past s => (∀ q ∈ past, ∀ e id, ¬ q.Delivers e id .updateLatency) →
    ∀ k l, s.state.registry.link k = .ok l → l.latency = l.baseLatency) ?_ ?_ ?_ hpast
  · intro b s hb h _ k l hl
    rw [← (Builder.pristine_of_build hb h).link hl]
    rfl
  · intro past s hs _ ih hpast k m hm
    obtain ⟨hnone, hpast⟩ := List.forall_mem_cons.1 hpast
    rcases Session.reacts_or_idles hs.reachable.orderly with
      ⟨e, receiver, msg, out, t, hreacts⟩ | hidles
    · rw [hreacts.registry] at hm
      obtain ⟨l, hl, rfl⟩ := link_touch_iff.1 hm
      rw [hreacts.reaction.link_eq]
      · exact ih hpast k l hl
      · rintro rfl
        exact hnone e receiver hreacts.delivers
    · rw [hidles.registry] at hm
      exact ih hpast k m hm
  · intro past s s' hnudged ih hpast k m hm
    obtain ⟨t, ht, hregistry⟩ := hnudged.registry
    rw [hregistry] at hm
    obtain ⟨l, hl, rfl⟩ := link_touch_iff.1 hm
    rw [ht.latency, (ht.faithful.link k l).baseLatency]
    exact ih hpast k l hl

/-- In every session of every run routes go with the links: there is a route if and only if it has a
latency and a delay, each of its hops takes the lowest link between its ends, and before the first
measurement its latency is the weight that the routing graph gives it. -/
theorem History.routed (hs : History g past s) (source target : EntityId) :
    s.state.Routed source target ∧
      ((∀ q ∈ past, ∀ e id, ¬ q.Delivers e id .updateLatency) →
        s.state.pathLatency source target =
          (s.state.route source target).bind s.state.graph.pathWeight) := by
  have hw := hs.reachable.orderly.wired
  refine ⟨World.routed_of_links hw fun path => hs.reachable.exists_linkOn, fun hpast => ?_⟩
  have hweight : ∀ hop : EntityId × EntityId, s.state.graph.weight? hop.1 hop.2 =
      (s.state.linkOn hop).map (·.latency) := by
    intro hop
    rw [hs.reachable.graph_eq, Graph.weight?_ofLinks, ← World.map_linkOn, Option.map_map]
    cases hl : s.state.linkOn hop with
    | none => rfl
    | some l =>
      obtain ⟨k, hk⟩ := mem_links_iff.1 (List.mem_of_find?_eq_some hl)
      exact congrArg some (hs.latency_eq hpast k l hk).symm
  rw [World.pathLatency, World.sumOverRoute_eq hw]
  unfold Graph.pathWeight
  simp only [hweight, Option.map_map]
  rfl

namespace Crossing

/-- Every node is linked to the head it starts with. -/
def cabling : Settings := { settings with autoLinkMembers := true }

theorem isSome_startUnder_cabling : (startUnder cabling).toOption.isSome = true := by
  decide +kernel

/-- The two heads and the two nodes with their links. -/
def cabled : Session World Payload := (startUnder cabling).toOption.get isSome_startUnder_cabling

theorem history_cabled : History g [cabled] cabled.afterStep := by
  have hstart : startUnder cabling = .ok cabled :=
    eq_ok_of_toOption (Option.some_get isSome_startUnder_cabling).symm
  obtain ⟨b, hb, h⟩ := made_of_startUnder hstart
  exact (History.built hb h).next (by decide +kernel)

/-- The first event makes the walker move. -/
theorem delivers_cabled {e : Event Payload} {k : EntityId} {msg : Message}
    (h : cabled.Delivers e k msg) : msg = .updateLocation := by
  obtain ⟨hpeek, sender, hpayload⟩ := h
  have hfirst : cabled.simulation.queue.peek?.map (·.payload) =
      some (.deliver walker walker .updateLocation) := by decide +kernel
  rw [hpeek, Option.map_some, hpayload] at hfirst
  cases hfirst
  rfl

end Crossing

/-- Two neighbours in the west are joined by way of their head. -/
theorem History.routed_cabled :
    Crossing.cabled.afterStep.state.route Crossing.walker Crossing.neighbour =
        some [Crossing.walker, Crossing.west, Crossing.neighbour] ∧
      (Crossing.cabled.afterStep.state.pathLatency Crossing.walker Crossing.neighbour).isSome ∧
      Crossing.cabled.afterStep.state.pathLatency Crossing.walker Crossing.neighbour =
        Crossing.cabled.afterStep.state.graph.pathWeight
          [Crossing.walker, Crossing.west, Crossing.neighbour] := by
  have hroute : Crossing.cabled.afterStep.state.route Crossing.walker Crossing.neighbour =
      some [Crossing.walker, Crossing.west, Crossing.neighbour] := by decide +kernel
  obtain ⟨hrouted, hweight⟩ := History.routed
    (Crossing.history_cabled (g := .unrestricted)) Crossing.walker Crossing.neighbour
  refine ⟨hroute, hrouted.latency.1 (by rw [hroute]; rfl), ?_⟩
  rw [hweight, hroute]
  · rfl
  · intro q hq e id hdelivers
    rw [List.mem_singleton.1 hq] at hdelivers
    cases Crossing.delivers_cabled hdelivers

end FogNet
