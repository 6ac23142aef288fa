import FogNet.Proofs.Run.Catalogue
import FogNet.Proofs.Run.Sending

/-!
# Runs come to an end

Timers are set again for ever, and with no delays all answers to a message are due at the very
instant of the message, so it is not obvious that a run up to an instant ends. `Message.cost` bounds
how many events a message can bring about up to an instant: a chain of answers ends after three
messages at most, and a timer is set again at a later instant, as settings under which nodes report
all the time are refused. What waits has a cost that every step lowers (`Session.Turn.cost_lt`), so
every run up to an instant comes to an end, and `Session.workload` says after how many events at
most (`Reachable.finishes`).
-/

namespace FogNet

open Registry

variable {c : Settings} {broker id k : EntityId} {now horizon due : Time} {r : Registry}
  {msg : Message} {out : List Outgoing} {t : Touch} {n : FogNode} {width : Nat}

/-! ## What a message brings about -/

/-- How many events up to an instant a message that is due at some instant brings about at most,
itself included, if no node has more than `width` links. A timer brings about itself, one message to
each link and three that have to do with the broker's decision, once in each tick at most. -/
def Message.cost (width : Nat) (horizon due : Time) : Message → Nat
  | updateLocation => (horizon + 1 - due) * (width + 4)
  | processNodeMove _ => 3
  | relocate _ => 2
  | nodeLeave => 2
  | joinPuddle _ => 1
  | leavePuddle _ => 1
  | updateLatency => 1

/-- How many events up to an instant an event brings about at most, itself included. -/
def Payload.cost (width : Nat) (horizon due : Time) : Payload → Nat
  | noop => 1
  | deliver _ _ message => message.cost width horizon due

/-- How many events up to an instant some events bring about at most, themselves included. -/
def totalCost (width : Nat) (horizon : Time) : List (Time × Payload) → Nat
  | [] => 0
  | e :: rest => e.2.cost width horizon e.1 + totalCost width horizon rest

theorem totalCost_append (l l' : List (Time × Payload)) :
    totalCost width horizon (l ++ l') = totalCost width horizon l + totalCost width horizon l' := by
  induction l with
  | nil => exact (Nat.zero_add _).symm
  | cons e rest ih => rw [List.cons_append, totalCost, totalCost, ih, Nat.add_assoc]

theorem totalCost_perm {l l' : List (Time × Payload)} (h : l.Perm l') :
    totalCost width horizon l = totalCost width horizon l' := by
  induction h with
  | nil => rfl
  | cons e h ih => rw [totalCost, totalCost, ih]
  | swap e d l => exact Nat.add_left_comm _ _ _
  | trans h h' ih ih' => exact ih.trans ih'

theorem Message.cost_pos (h : due ≤ horizon) (msg : Message) : 0 < msg.cost width horizon due := by
  cases msg with
  | updateLocation =>
    have hticks : 0 < horizon + 1 - due := by lia
    exact Nat.mul_pos hticks (Nat.succ_pos _)
  | processNodeMove | joinPuddle | leavePuddle | relocate | nodeLeave | updateLatency =>
    exact Nat.succ_pos _

theorem Payload.cost_pos (h : due ≤ horizon) (p : Payload) : 0 < p.cost width horizon due := by
  cases p with
  | noop => exact Nat.one_pos
  | deliver sender receiver msg => exact msg.cost_pos h

/-! ## Reactions cost less than they are worth -/

/-- No node has more than some links. -/
def Registry.Narrow (r : Registry) (width : Nat) : Prop :=
  ∀ k n, r.fogNode k = .ok n → n.links.toList.length ≤ width

theorem Registry.Narrow.touch (h : r.Narrow width) (ht : t.Faithful) :
    (r.touch t).Narrow width := by
  intro k m hm
  obtain ⟨n, hn, rfl⟩ := fogNode_touch_iff.1 hm
  rw [(ht.node k n).links]
  exact h k n hn

theorem FogNode.cost_reports (hinterval : 0 < c.locationUpdateInterval) (hnow : now ≤ horizon)
    (hn : n.links.toList.length ≤ width) :
    totalCost width horizon ((n.reports c broker id).map (Outgoing.entry now)) <
      (horizon + 1 - now) * (width + 4) := by
  have hlinks : ∀ l : List EntityId, totalCost width horizon ((l.map fun link =>
      (⟨c.messageDelay, id, link, .updateLatency⟩ : Outgoing)).map (Outgoing.entry now)) =
        l.length := by
    intro l
    induction l with
    | nil => rfl
    | cons link rest ih =>
      rw [List.map_cons, List.map_cons, totalCost, ih, List.length_cons, Nat.add_comm]
      rfl
  have htimer : (horizon + 1 - (now + c.locationUpdateInterval)) * (width + 4) ≤
      (horizon - now) * (width + 4) := Nat.mul_le_mul_right _ (by lia)
  have hticks : (horizon + 1 - now) * (width + 4) =
      (horizon - now) * (width + 4) + (width + 4) := by
    rw [show horizon + 1 - now = horizon - now + 1 by lia, Nat.add_one_mul]
  have hreports : totalCost width horizon ((n.reports c broker id).map (Outgoing.entry now)) =
      (horizon + 1 - (now + c.locationUpdateInterval)) * (width + 4) +
        n.links.toList.length + 3 := by
    unfold FogNode.reports
    rw [List.map_append, List.map_cons, totalCost_append, totalCost, hlinks]
    rfl
  lia

theorem FogNode.cost_farewell (n : FogNode) :
    totalCost width horizon ((n.farewell c id).map (Outgoing.entry now)) ≤ 1 := by
  unfold FogNode.farewell
  cases n.owner? with
  | none => exact Nat.zero_le 1
  | some head => exact Nat.le_refl 1

theorem Placement.cost_orders (p : Placement) :
    totalCost width horizon ((p.orders c broker k).map (Outgoing.entry now)) ≤ 2 := by
  cases p with
  | stay | ignore => exact Nat.zero_le 2
  | join target => exact Nat.le_succ 1
  | relocate source target => exact Nat.le_refl 2
  | depart source => exact Nat.le_refl 2

/-- The answers to a message cost less than the message. -/
theorem Reaction.cost_lt (h : Reaction c broker now r id msg out t)
    (hinterval : 0 < c.locationUpdateInterval) (hr : r.Narrow width) (hnow : now ≤ horizon) :
    totalCost width horizon (out.map (Outgoing.entry now)) < msg.cost width horizon now := by
  cases h with
  | ignores | rests | isGone | takesIn | misses | keeps | picksUp | strikesOff | measures =>
    exact Message.cost_pos hnow _
  | moves hn => exact FogNode.cost_reports hinterval hnow (hr _ _ hn)
  | departs => exact Nat.lt_succ_of_le (FogNode.cost_farewell _)
  | takesOver => exact Nat.lt_succ_self 1
  | places => exact Nat.lt_succ_of_le (Placement.cost_orders _)

namespace Session

variable {s s' : Session World Payload} {e : Event Payload} {ok : Prop}

/-- A step that hands out an event lowers the cost of what waits. -/
theorem Turn.cost_lt (h : s.Turn ok s') (hinterval : 0 < s.state.settings.locationUpdateInterval)
    (hr : s.state.registry.Narrow width) (hpeek : s.simulation.queue.peek? = some e)
    (he : e.time ≤ horizon) :
    totalCost width horizon s'.entries < totalCost width horizon s.entries := by
  have hfirst : ∀ {now p rest}, s.entries = (now, p) :: rest → now ≤ horizon := by
    intro now p rest hqueue
    have hhead := congrArg List.head? hqueue
    unfold entries EventQueue.entries at hhead
    rw [List.head?_map, show s.simulation.queue.pending.head? = some e from hpeek] at hhead
    cases hhead
    exact he
  cases h with
  | rests hqueue =>
    have hhead := congrArg List.head? hqueue
    unfold entries EventQueue.entries at hhead
    rw [List.head?_map, show s.simulation.queue.pending.head? = some e from hpeek] at hhead
    cases hhead
  | passes hqueue _ hrest =>
    rw [hqueue, hrest, totalCost]
    exact Nat.lt_add_of_pos_left (Payload.cost_pos (hfirst hqueue) _)
  | fails _ hqueue _ _ hrest =>
    rw [hqueue, hrest, totalCost]
    exact Nat.lt_add_of_pos_left (Payload.cost_pos (hfirst hqueue) _)
  | reacts hqueue _ hreact hsent _ hrest =>
    have hless := hreact.cost_lt hinterval hr (hfirst hqueue)
    obtain ⟨unsent, rfl⟩ := hsent
    rw [List.map_append, totalCost_append] at hless
    rw [hqueue, totalCost_perm hrest, totalCost_append, totalCost]
    exact Nat.add_lt_add_right (Nat.lt_of_le_of_lt (Nat.le_add_right _ _) hless) _

/-- What the cost of messages rests on: settings that let time go by between two reports, and nodes
with not too many links. -/
structure Bounded (width : Nat) (s : Session World Payload) : Prop where
  /-- The records agree. -/
  orderly : s.state.registry.Orderly
  /-- Time goes by between two reports of a node. -/
  interval : 0 < s.state.settings.locationUpdateInterval
  /-- No node has more than some links. -/
  narrow : s.state.registry.Narrow width

theorem Bounded.afterStep (h : s.Bounded width) : s.afterStep.Bounded width := by
  obtain ⟨-, hsettings, hturn, -⟩ := step_spec h.orderly
  refine ⟨hturn.advance.orderly h.orderly, hsettings ▸ h.interval, ?_⟩
  rcases reacts_or_idles h.orderly with ⟨e, receiver, msg, out, t, hreacts⟩ | hidles
  · rw [hreacts.registry]
    exact h.narrow.touch hreacts.reaction.faithful
  · rw [hidles.registry]
    exact h.narrow

end Session

/-! ## Settings stay -/

theorem Settings.interval_pos (h : c.validate = .ok ()) : 0 < c.locationUpdateInterval := by
  unfold validate at h
  split_ifs at h with hzero
  · exact Nat.pos_of_ne_zero hzero

variable {g : Regime} {s s' : Session World Payload}

/-- A builder has settings under which a run makes sense. -/
theorem Builder.Made.settings_valid {admits : Time → Payload → Prop} {b : Builder}
    (hb : b.Made admits) : b.settings.validate = .ok () := by
  induction hb with
  | @start c b h =>
    obtain ⟨hvalid, rfl⟩ := Builder.start_eq_ok h
    exact hvalid
  | puddleHead hb _ _ _ _ ih =>
    have hr := hb.draft.orderly
    rwa [(Builder.extended_puddleHead hr.wired hr.enrolled.copied _ _ _ _).settings]
  | attach hb _ _ ih =>
    have hr := hb.draft.orderly
    rwa [(Builder.extended_attach hr.wired hr.enrolled.copied _ _).settings]
  | fogNode hb _ ih =>
    have hr := hb.draft.orderly
    rwa [(Builder.extended_fogNode hr.wired hr.enrolled.copied _).settings]
  | link hb _ _ _ _ ih =>
    have hr := hb.draft.orderly
    rwa [(Builder.extended_link hr.wired hr.enrolled.copied _ _ _ _).settings]
  | schedule _ _ ih => exact ih

theorem Session.Next.settings (hr : s.state.registry.Orderly) (h : s.Next g s') :
    s'.state.settings = s.state.settings := by
  have hstep : s.afterStep.state.settings = s.state.settings := (Session.step_spec hr).2.1
  cases h with
  | stepped h => rwa [Session.afterStep_of_ok h] at hstep
  | failed h _ => rwa [Session.afterStep_of_error h] at hstep
  | posted _ | waited _ => rfl
  | intervened h =>
    obtain ⟨t, -, rfl⟩ := h.slight
    rfl

theorem Reachable.settings_valid (hs : Reachable g s) : s.state.settings.validate = .ok () := by
  refine hs.invariant (P := fun s => s.state.settings.validate = .ok ()) ?_ ?_
  · intro b s hb h
    rw [(Builder.placed_of_build h).2.2.1]
    exact hb.settings_valid
  · intro s s' hs h ih
    rw [h.settings hs.orderly]
    exact ih

/-! ## Runs up to an instant -/

/-- The number of ends that links have at nodes. -/
def Registry.linkEnds (r : Registry) : Nat :=
  (r.fogNodes.map fun n => n.links.toList).flatten.length

theorem Registry.narrow_linkEnds (r : Registry) : r.Narrow r.linkEnds := by
  intro k n hn
  have hlinks : n.links.toList ∈ r.fogNodes.map fun n => n.links.toList :=
    List.mem_map_of_mem (mem_fogNodes_iff.2 ⟨k, hn⟩)
  exact (List.sublist_flatten_of_mem hlinks).length_le

/-- A bound on the number of events up to an instant. -/
def Session.workload (s : Session World Payload) (horizon : Time) : Nat :=
  totalCost s.state.registry.linkEnds horizon s.entries

/-- Whatever has happened before, a run up to an instant hands out no more events than its workload
says; then it has come to an end, and a good end leaves later events only. -/
theorem Reachable.finishes (hs : Reachable g s) (horizon : Time) :
    ∃ result, s.runUntil World.handle horizon (s.workload horizon + 1) = some result ∧
      (stateOf result).handedOutSince s ≤ s.workload horizon ∧
      ∀ u s', result = .ok u s' → ∀ e ∈ s'.simulation.queue.pending, horizon < e.time := by
  have hbounded : s.Bounded s.state.registry.linkEnds :=
    ⟨hs.orderly, Settings.interval_pos hs.settings_valid, s.state.registry.narrow_linkEnds⟩
  have hstep : ∀ (q : Session World Payload) (next : Event Payload),
      q.Bounded s.state.registry.linkEnds → q.simulation.queue.peek? = some next →
        decide (next.time ≤ horizon) = true → q.afterStep.Bounded s.state.registry.linkEnds ∧
          totalCost s.state.registry.linkEnds horizon q.afterStep.entries <
            totalCost s.state.registry.linkEnds horizon q.entries :=
    fun q next hq hpeek haccept => ⟨hq.afterStep,
      (Session.step_spec hq.orderly).2.2.1.cost_lt hq.interval hq.narrow hpeek
        (of_decide_eq_true haccept)⟩
  obtain ⟨stopped, hrun, hcount⟩ := Session.exists_runWhile_of_measure
    (fun q => totalCost s.state.registry.linkEnds horizon q.entries) hstep hbounded
    (Nat.lt_succ_self (s.workload horizon))
  have hfinish : s.runUntil World.handle horizon (s.workload horizon + 1) =
      some (Session.settle horizon stopped) := by
    rw [Session.runUntil_eq, hrun]
    rfl
  refine ⟨_, hfinish, ?_, fun u s' hok => ?_⟩
  · unfold Session.handedOutSince
    cases stopped <;> exact Nat.sub_le_of_le_add (Nat.add_comm _ _ ▸ hcount)
  · rw [hok] at hfinish
    exact Session.Finishes.later ⟨_, hfinish⟩

namespace Crossing

/-- Messages take no time, and neither does handing over. -/
def instantly : Settings := { settings with messageDelay := 0, handoffDelay := 0 }

/-- The network at its start if messages take no time. -/
def startInstantly : Except Fault (Session World Payload) :=
  match Builder.start instantly with
  | .error fault => .error fault
  | .ok b => (draft b).build

theorem isSome_startInstantly : startInstantly.toOption.isSome = true := by decide +kernel

/-- The two heads and the two nodes if messages take no time. -/
def instant : Session World Payload := startInstantly.toOption.get isSome_startInstantly

theorem reachable_instant : Reachable g instant := by
  have hbuild : startInstantly = .ok instant :=
    eq_ok_of_toOption (Option.some_get isSome_startInstantly).symm
  have hunder : startInstantly = startUnder instantly := by
    unfold startInstantly startUnder
    rfl
  obtain ⟨b, hb, h⟩ := made_of_startUnder (hunder.symm.trans hbuild)
  exact .built hb h

end Crossing

/-- If messages take no time, a run up to instant 1000 ends all the same. -/
theorem Reachable.finishes_instant :
    ∃ result, Crossing.instant.runUntil World.handle 1000 (Crossing.instant.workload 1000 + 1) =
      some result ∧ (stateOf result).handedOutSince Crossing.instant ≤ 3964 := by
  obtain ⟨result, hrun, hcount, -⟩ :=
    Reachable.finishes (g := .unrestricted) Crossing.reachable_instant 1000
  exact ⟨result, hrun, Nat.le_trans hcount (by decide +kernel)⟩

end FogNet
