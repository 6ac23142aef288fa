import FogNet.Proofs.Kernel.Diary
import FogNet.Proofs.Run.Reachable

/-!
# No event is lost

Whatever a handler does with the events it is given, and whichever calls are made on the simulation
from outside, no event is lost and none is handed over twice, and the handler sees them in the order
of their instants and, within one instant, of their creation (`Conduct.conserves`). That a step
fails makes no difference. The handler of a network is one of the handlers meant
(`World.handler_conduct`).
-/

namespace FogNet

/-! ## The handler of a network -/

/-- Post messages one after the other and go on with the outcome. -/
def Routine.posting {σ ε : Type} (next : Except ScheduleError Unit → Routine σ Payload ε) :
    List Outgoing → Routine σ Payload ε
  | [] => next (.ok ())
  | o :: rest => .postAfter o.delay o.payload fun answer =>
    match answer with
    | .error cause => next (.error cause)
    | .ok _ => posting next rest

theorem Routine.perform_posting {σ ε : Type}
    (next : Except ScheduleError Unit → Routine σ Payload ε) (now : Time) (out : List Outgoing)
    (q : EventQueue Payload) :
    (posting next out).perform now q =
      (next (postAll now out q).1).perform now (postAll now out q).2 := by
  induction out generalizing q with
  | nil => rfl
  | cons o rest ih =>
    have hpayload : o.payload = .deliver o.sender o.receiver o.message := rfl
    simp only [posting, perform, postAll, hpayload]
    cases q.postAfter now o.delay (.deliver o.sender o.receiver o.message) with
    | error cause => rfl
    | ok answer => exact ih answer.2

/-- What a network does with an event, call by call. -/
def World.conduct : Conduct World Payload Fault := fun now event w =>
  match TraceEntry.ofEvent? now event with
  | none => .finish w
  | some entry =>
    let w := { w with trace := w.trace.push entry }
    match Change.react w.settings w.broker now entry.receiver entry.message w.registry with
    | .error fault registry => .fail fault { w with registry }
    | .ok outgoing registry =>
      let w := { w with registry }
      .posting (fun outcome =>
        match outcome with
        | .error cause => .fail (.schedule cause) w
        | .ok _ =>
          match w.inspect with
          | .error cause => .fail (.violation cause) w
          | .ok _ => .finish w) outgoing

theorem World.handler_conduct : World.conduct.handler = World.handle := by
  funext now event g
  unfold Conduct.handler conduct handle
  cases TraceEntry.ofEvent? now event with
  | none => rfl
  | some entry =>
    unfold deliver
    dsimp only
    cases Change.react g.state.settings g.state.broker now entry.receiver entry.message
        g.state.registry with
    | error fault registry => rfl
    | ok outgoing registry =>
      dsimp only
      rw [Routine.perform_posting]
      cases postAll now outgoing g.queue with
      | mk outcome queue =>
        cases outcome with
        | error cause => rfl
        | ok u =>
          dsimp only
          cases World.inspect _ <;> rfl

/-! ## Every handler -/

/-- The events in a diary and those that wait make up what was created. -/
structure Diary.Balances {π : Type} (d : Diary π) (m : Simulation π) : Prop where
  /-- The events were handed over in the order of their instants and numbers. -/
  increasing : d.events.Pairwise Event.Precedes
  /-- No event was handed over twice. -/
  once : (d.events.map Event.id).Nodup
  /-- Each event was handed over at the instant at which it was due. -/
  punctual : ∀ h ∈ d.handed, h.1 = h.2.time
  /-- The clock has not been turned back behind an event. -/
  past : ∀ h ∈ d.handed, h.1 ≤ m.clock
  /-- The events that were handed over and those that wait are those that were created. -/
  conserved : (d.events ++ m.queue.pending).Perm d.created
  /-- The events that were created have the numbers up to the next one, in order. -/
  numbered : d.created.map Event.id = List.range m.queue.nextId
  /-- The events that were counted are those that were handed over. -/
  counted : m.processed = d.handed.length
  /-- The events that were counted and those that wait are as many as the numbers given. -/
  total : m.processed + m.queue.size = m.queue.nextId

theorem Session.Faithful.balances {σ π : Type} {s : Session (σ × Diary π) π} (hs : s.Faithful) :
    s.state.2.Balances s.simulation := by
  have hids : ((s.state.2.events ++ s.simulation.queue.pending).map Event.id).Perm
      (List.range s.simulation.queue.nextId) := by
    rw [← hs.kept.numbered]
    exact hs.kept.conserved.map Event.id
  have hlength : s.state.2.events.length = s.state.2.handed.length := List.length_map _
  refine ⟨(List.pairwise_append.1 hs.kept.ordered).1, ?_, hs.kept.punctual, fun h hh => ?_,
    hs.kept.conserved, hs.kept.numbered, hs.counted, ?_⟩
  · have hnodup := hids.nodup_iff.2 List.nodup_range
    rw [List.map_append] at hnodup
    exact (List.nodup_append.1 hnodup).1
  · rw [hs.kept.punctual h hh]
    exact hs.kept.past h.2 (List.mem_map_of_mem hh)
  · have htotal := hids.length_eq
    rw [List.length_map, List.length_append, List.length_range, hlength] at htotal
    rw [hs.counted]
    exact htotal

/-- A handler is any conduct; it may fail at any event, after it has posted some. Whichever calls
are made on a new simulation, failing ones included, the diary kept by the handler balances: the
events were handed over in order, each once and at its instant, and with those that wait they are
the ones that were created, as many as numbers have been given. No further call turns back the
clock. -/
theorem Conduct.conserves {σ π ε : Type} (c : Conduct σ π ε) (state : σ) (calls : List (Call π))
    {s : Session σ π} (h : Session.callAll c.handler ⟨.start, state⟩ calls = some s) :
    ∃ d : Diary π,
      Session.noteAll c ⟨.start, (state, .blank)⟩ calls = some ⟨s.simulation, (s.state, d)⟩ ∧
        d.Balances s.simulation ∧
        ∀ call s', s.call c.handler call = some s' → s.simulation.clock ≤ s'.simulation.clock := by
  have hmap := (Session.map_noteAll c calls ⟨.start, (state, .blank)⟩).trans h
  obtain ⟨t, hnote, rfl⟩ := Option.map_eq_some_iff.1 hmap
  have ht : t.Faithful := (Session.faithful_start state).noteAll hnote
  refine ⟨t.state.2, hnote, ht.balances, fun call s' hcall => ?_⟩
  rw [← Session.map_noteCall] at hcall
  obtain ⟨t', hnote', rfl⟩ := Option.map_eq_some_iff.1 hcall
  exact (ht.noteCall hnote').2

namespace Crossing

/-- Some calls: two events at one instant, a message to nobody, at which a run fails, and the run
continued after it. -/
def calls : List (Call Payload) :=
  [.schedule 10 (.deliver walker walker .updateLocation), .schedule 10 .noop,
    .schedule 11 (.deliver walker 99 .updateLocation), .step, .runUntil 12 16, .runFor 2,
    .schedule 12 .noop, .runUntil 30 16]

/-- The network with a new simulation. -/
def fresh : Session World Payload := ⟨.start, first.state⟩

theorem isSome_calls : (fresh.callAll World.conduct.handler calls).isSome = true := by
  decide +kernel

/-- The network after the calls. -/
def called : Session World Payload :=
  (fresh.callAll World.conduct.handler calls).get isSome_calls

theorem callAll_calls : fresh.callAll World.conduct.handler calls = some called :=
  (Option.some_get isSome_calls).symm

theorem events_calls : ((Session.noteAll World.conduct ⟨.start, (first.state, .blank)⟩ calls).map
    fun s => s.state.2.events.map Event.id) = some [0, 1, 2, 4, 5, 7, 6, 3, 9, 8] := by
  decide +kernel

end Crossing

/-- In a run of the network with a failing event, the third, ten events are handed over, in the
order of their instants. -/
theorem Conduct.conserves_crossing : ∃ d : Diary Payload, d.Balances Crossing.called.simulation ∧
    d.events.map Event.id = [0, 1, 2, 4, 5, 7, 6, 3, 9, 8] := by
  obtain ⟨d, hnote, hbalances, -⟩ :=
    Conduct.conserves World.conduct Crossing.first.state Crossing.calls Crossing.callAll_calls
  have hevents := Crossing.events_calls
  rw [hnote] at hevents
  exact ⟨d, hbalances, Option.some.inj hevents⟩

end FogNet
