import FogNet.Proofs.Run.Routes

/-!
# Transfers along routes

A transfer estimates its delay and queues its bytes in one pass over the hops of its route. A route
meets no vertex twice, so its hops take different links (`World.nodup_links_of_takes`), and what the
pass has queued so far is nowhere on the links that it has still to look at (`World.Awaiting`). The
estimate is therefore that of the network before the transfer, and each hop has the bytes once, from
the end it starts at, behind what was queued there (`Reachable.transfers`).
-/

namespace FogNet

open Registry

variable {r r₀ : Registry} {k a b c d source target : EntityId} {bytes : Nat} {w : World}
  {l : Link} {hop : EntityId × EntityId} {path : List EntityId}
  {hops used rest : List (EntityId × EntityId)} {total : Float}

theorem exists_of_forall₂ {α β : Type} {R : α → β → Prop} {xs : List α} {ys : List β} {x : α}
    (h : List.Forall₂ R xs ys) (hx : x ∈ xs) : ∃ y ∈ ys, R x y := by
  induction h with
  | nil => cases hx
  | cons hxy _ ih =>
    rcases List.mem_cons.1 hx with rfl | hx
    · exact ⟨_, List.mem_cons_self, hxy⟩
    · obtain ⟨y, hy, h⟩ := ih hx
      exact ⟨y, List.mem_cons_of_mem _ hy, h⟩

/-! ## Hops of a path -/

theorem Graph.mem_of_mem_hops (h : hop ∈ Graph.hops path) : hop.1 ∈ path ∧ hop.2 ∈ path := by
  induction path with
  | nil => cases h
  | cons u path ih =>
    cases path with
    | nil => cases h
    | cons v path =>
      rcases List.mem_cons.1 h with rfl | h
      · exact ⟨List.mem_cons_self, List.mem_cons_of_mem _ List.mem_cons_self⟩
      · exact ⟨List.mem_cons_of_mem _ (ih h).1, List.mem_cons_of_mem _ (ih h).2⟩

/-- Whatever pairs a link joins, they have their vertices in common. -/
theorem Link.eq_or_eq_of_connects (hab : l.connects a b = true) (hcd : l.connects c d = true) :
    a = c ∨ a = d := by
  simp only [connects, Bool.or_eq_true, Bool.and_eq_true, beq_iff_eq] at hab hcd
  grind

/-- A link that joins two entities has a direction from either. -/
theorem Link.exists_direction_of_connects (hab : l.connects a b = true) :
    ∃ d, l.directionFrom? a = some d := by
  simp only [connects, Bool.or_eq_true, Bool.and_eq_true, beq_iff_eq] at hab
  unfold directionFrom?
  split_ifs with hfirst hsecond
  · exact ⟨_, rfl⟩
  · exact ⟨_, rfl⟩
  · grind

/-- The hops of a path that meets no vertex twice take different links. -/
theorem World.nodup_links_of_takes (hpath : path.Nodup)
    (htakes : List.Forall₂ w.Takes (Graph.hops path) used) : (used.map Prod.fst).Nodup := by
  induction path generalizing used with
  | nil =>
    cases htakes
    exact List.nodup_nil
  | cons u path ih =>
    cases path with
    | nil =>
      cases htakes
      exact List.nodup_nil
    | cons v path =>
      obtain ⟨hu, hpath⟩ := List.nodup_cons.1 hpath
      cases htakes with
      | @cons _ taken _ rest htaken hrest =>
        refine List.nodup_cons.2 ⟨fun hmem => hu ?_, ih hpath hrest⟩
        -- a later hop on the same link would end where this one starts
        obtain ⟨later, hlater, hsame⟩ := List.mem_map.1 hmem
        obtain ⟨hop, hhop, htakes⟩ := exists_of_forall₂ hrest.flip hlater
        obtain ⟨l, hl, hconnects⟩ := htaken.joins
        obtain ⟨m, hm, hjoins⟩ := htakes.joins
        rw [hsame] at hm
        obtain rfl := Except.ok.inj (hl.symm.trans hm)
        obtain ⟨hstart, hend⟩ := Graph.mem_of_mem_hops hhop
        obtain heq | heq : u = hop.1 ∨ u = hop.2 := Link.eq_or_eq_of_connects hconnects hjoins
        · exact heq ▸ hstart
        · exact heq ▸ hend

/-! ## Queueing on several links -/

/-- Bytes are queued on some links, each from one of its ends. -/
def Touch.loading (bytes : Nat) : List (EntityId × EntityId) → Touch
  | [] => .nothing
  | hop :: rest =>
    (Touch.onLink hop.1 fun l => (l.enqueue hop.2 bytes).2).andThen (loading bytes rest)

/-- An entity that is none of the links stays as it is. -/
theorem Touch.entity_loading_of_not_mem (hk : k ∉ used.map Prod.fst) (e : Entity) :
    (Touch.loading bytes used).entity k e = e := by
  induction used generalizing e with
  | nil => exact entity_nothing k e
  | cons hop rest ih =>
    obtain ⟨hne, hk⟩ := not_or.1 (mt List.mem_cons.2 hk)
    have hlink : (Touch.onLink hop.1 fun l => (l.enqueue hop.2 bytes).2).entity k e = e := by
      cases e <;> simp [Touch.entity, Touch.onLink, Touch.nothing, hne]
    show ((Touch.onLink _ _).andThen _).entity k e = e
    rw [entity_andThen, hlink]
    exact ih hk e

/-- If the links are different, each of them gets the bytes once. -/
theorem Touch.link_loading (hused : (used.map Prod.fst).Nodup) (hhop : hop ∈ used) (l : Link) :
    (Touch.loading bytes used).link hop.1 l = (l.enqueue hop.2 bytes).2 := by
  induction used generalizing l with
  | nil => cases hhop
  | cons first rest ih =>
    obtain ⟨hfirst, hrest⟩ := List.nodup_cons.1 hused
    show (Touch.loading bytes rest).link hop.1 (if hop.1 = first.1 then _ else l) = _
    rcases List.mem_cons.1 hhop with rfl | hhop
    · rw [if_pos rfl]
      exact Entity.link.inj (entity_loading_of_not_mem hfirst (.link _))
    · have hne : hop.1 ≠ first.1 := fun heq => hfirst (heq ▸ List.mem_map_of_mem hhop)
      rw [if_neg hne]
      exact ih hrest hhop l

namespace World

/-- The links on which bytes have still to be queued are different, and they are as they were in an
earlier registry. -/
structure Awaiting (r₀ r : Registry) (used : List (EntityId × EntityId)) : Prop where
  /-- No link is used twice. -/
  nodup : (used.map Prod.fst).Nodup
  /-- Nothing has been queued on them. -/
  same : ∀ hop ∈ used, ∃ l, r₀.link hop.1 = .ok l ∧ r.link hop.1 = .ok l

theorem Awaiting.next (h : Awaiting r₀ r (hop :: rest)) (f : Link → Link) :
    Awaiting r₀ (r.touch (.onLink hop.1 f)) rest := by
  obtain ⟨hhop, hrest⟩ := List.nodup_cons.1 h.nodup
  refine ⟨hrest, fun later hlater => ?_⟩
  obtain ⟨l, hl, hsame⟩ := h.same later (List.mem_cons_of_mem _ hlater)
  have hne : later.1 ≠ hop.1 := fun heq => hhop (heq ▸ List.mem_map_of_mem hlater)
  exact ⟨l, hl, link_touch_iff.2 ⟨l, hsame, (if_neg hne).symm⟩⟩

/-- The pass over the hops adds up the delays of the earlier registry and queues the bytes. -/
theorem Awaiting.queueOnHops (h : Awaiting r₀ r used) (bytes : Nat) (total : Float) :
    ∃ delay, used.foldlM (fun total hop => (r₀.link hop.1).toOption.map fun l =>
        total + l.estimatedDelay hop.2 bytes) total = some delay ∧
      World.queueOnHops bytes used total r = .ok delay (r.touch (.loading bytes used)) := by
  induction used generalizing r total with
  | nil =>
    refine ⟨total, rfl, ?_⟩
    show EStateM.Result.ok total r = .ok total (r.touch .nothing)
    rw [touch_nothing]
  | cons hop rest ih =>
    obtain ⟨l, hl, hsame⟩ := h.same hop List.mem_cons_self
    obtain ⟨delay, hdelay, hrun⟩ := ih (h.next fun l => (l.enqueue hop.2 bytes).2)
      (total + l.estimatedDelay hop.2 bytes)
    refine ⟨delay, ?_, ?_⟩
    · rw [List.foldlM_cons, hl]
      exact hdelay
    · rw [queueOnHops_of_ok bytes rest total hsame, hrun, touch_touch]
      rfl

/-! ## Transfers -/

/-- A registry in which bytes have been queued on some hops, and all else is as it was. -/
structure Loaded (w : World) (hops : List (EntityId × EntityId)) (bytes : Nat) (r : Registry) :
    Prop where
  /-- The lowest link of each hop has the bytes once, behind what the start of the hop has
  queued there. -/
  queued : ∀ hop ∈ hops, ∃ k l d, w.Takes hop (k, hop.1) ∧ w.registry.link k = .ok l ∧
    l.directionFrom? hop.1 = some d ∧ r.link k = .ok (l.setQueue (l.queue d ++ [bytes]) d)
  /-- Whatever is not the lowest link of a hop stays as it was. -/
  kept : ∀ k, (∀ hop ∈ hops, ¬ w.Takes hop (k, hop.1)) →
    r.entities.get? k = w.registry.entities.get? k
  /-- No number is used up. -/
  nextId : r.nextId = w.registry.nextId

/-- A transfer answers with the delay that was to be expected before it, and leaves a registry. -/
structure Transfers (w : World) (source target : EntityId) (bytes : Nat) (r : Registry) :
    Prop where
  /-- It does not fail, and it changes nothing but the registry. -/
  answer : w.queueTransfer source target bytes =
    .ok (w.transferDelay source target bytes) { w with registry := r }
  /-- Without a delay there is no change. -/
  unrouted : w.transferDelay source target bytes = none → r = w.registry
  /-- With a delay there is a route, and the bytes are queued on its hops. -/
  routed : ∀ delay, w.transferDelay source target bytes = some delay →
    ∃ path, w.route source target = some path ∧ w.Loaded (Graph.hops path) bytes r

/-- Loading the links that the hops take changes them and nothing else. -/
theorem loaded_of_takes (htakes : List.Forall₂ w.Takes hops used)
    (hused : (used.map Prod.fst).Nodup) :
    w.Loaded hops bytes (w.registry.touch (.loading bytes used)) where
  queued hop hhop := by
    obtain ⟨⟨k, sender⟩, hmem, ht⟩ := exists_of_forall₂ htakes hhop
    obtain rfl : sender = hop.1 := ht.sender
    obtain ⟨l, hl, hconnects⟩ := ht.joins
    obtain ⟨d, hd⟩ := Link.exists_direction_of_connects hconnects
    refine ⟨k, l, d, ht, hl, hd, link_touch_iff.2 ⟨l, hl, ?_⟩⟩
    rw [Touch.link_loading hused hmem l]
    unfold Link.enqueue
    rw [hd]
  kept k hk := by
    have hfree : k ∉ used.map Prod.fst := by
      intro hmem
      obtain ⟨⟨_, sender⟩, hused, rfl⟩ := List.mem_map.1 hmem
      obtain ⟨hop, hhop, ht⟩ := exists_of_forall₂ htakes.flip hused
      obtain rfl : sender = hop.1 := ht.sender
      exact hk hop hhop ht
    rw [get?_touch]
    cases w.registry.entities.get? k with
    | none => rfl
    | some e => exact congrArg some (Touch.entity_loading_of_not_mem hfree e)
  nextId := rfl

end World

/-- In every session of every run, a transfer never fails and answers with the delay estimated
before it; where there is no route it changes nothing, and else it queues the bytes once on each hop
and changes nothing else. -/
theorem Reachable.transfers {g : Regime} {s : Session World Payload} (hs : Reachable g s)
    (source target : EntityId) (bytes : Nat) :
    ∃ r, s.state.Transfers source target bytes r := by
  have hrouted : s.state.Routed source target :=
    World.routed_of_links hs.orderly.wired fun path => hs.exists_linkOn
  cases hroute : s.state.route source target with
  | none =>
    have hhops : s.state.routeHops source target = none := by
      rw [World.routeHops, hroute]
      rfl
    have hdelay : s.state.transferDelay source target bytes = none := by
      rw [World.transferDelay, World.sumOverRoute, hhops]
      rfl
    refine ⟨s.state.registry, ?_, fun _ => rfl, fun delay hsome => ?_⟩
    · rw [World.queueTransfer, hhops, hdelay]
    · cases hdelay.symm.trans hsome
  | some path =>
    obtain ⟨used, hhops, htakes⟩ := hrouted.hops path hroute
    have hused := World.nodup_links_of_takes
      (Graph.shortestPath_eq_some_iff.1 hroute).nodup htakes
    have hawaiting : World.Awaiting s.state.registry s.state.registry used := by
      refine ⟨hused, fun hop hhop => ?_⟩
      obtain ⟨_, -, ht⟩ := exists_of_forall₂ htakes.flip hhop
      obtain ⟨l, hl, -⟩ := ht.joins
      exact ⟨l, hl, hl⟩
    obtain ⟨delay, hsum, hrun⟩ := hawaiting.queueOnHops bytes 0
    have hdelay : s.state.transferDelay source target bytes = some delay := by
      rw [World.transferDelay, World.sumOverRoute, hhops]
      exact hsum
    refine ⟨_, ?_, fun hnone => ?_, fun _ _ => ⟨path, hroute, World.loaded_of_takes htakes hused⟩⟩
    · have hmap : (some <$> World.queueOnHops bytes used 0) s.state.registry =
          .ok (some delay) (s.state.registry.touch (.loading bytes used)) := by
        show EStateM.map some _ _ = _
        unfold EStateM.map
        rw [hrun]
      rw [World.queueTransfer, hhops, hdelay]
      show World.change _ s.state = _
      unfold World.change
      rw [hmap]
    · cases hdelay.symm.trans hnone

namespace Crossing

/-- The cabled network with bytes on their way from the walker to its neighbour. -/
def laden : Session World Payload :=
  { cabled.afterStep with
    state := stateOf (World.queueTransfer walker neighbour 300 cabled.afterStep.state) }

theorem reachable_laden {g : Regime} : Reachable g laden :=
  history_cabled.reachable.intervened (.queueTransfer walker neighbour 300)

end Crossing

/-- The second transfer waits behind the first one, on the link of the neighbour in the direction
that leads away from the head. -/
theorem Reachable.transfers_laden :
    Crossing.laden.state.route Crossing.walker Crossing.neighbour =
        some [Crossing.walker, Crossing.west, Crossing.neighbour] ∧
      ∃ r, Crossing.laden.state.queueTransfer Crossing.walker Crossing.neighbour 700 =
          .ok (Crossing.laden.state.transferDelay Crossing.walker Crossing.neighbour 700)
            { Crossing.laden.state with registry := r } ∧
        (r.link 6).toOption.map (·.forwardQueue) = some [300, 700] ∧
        (r.link 7).toOption.map (·.reverseQueue) = some [300, 700] := by
  refine ⟨by decide +kernel, ?_⟩
  obtain ⟨r, hr⟩ := Reachable.transfers (g := .unrestricted) Crossing.reachable_laden
    Crossing.walker Crossing.neighbour 700
  have hregistry : r = (stateOf (Crossing.laden.state.queueTransfer Crossing.walker
      Crossing.neighbour 700)).registry := by
    rw [hr.answer]
    rfl
  refine ⟨r, hr.answer, ?_, ?_⟩
  · rw [hregistry]
    decide +kernel
  · rw [hregistry]
    decide +kernel

end FogNet
