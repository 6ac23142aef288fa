import FogNet.Proofs.Run.Intervention
import FogNet.Proofs.Topology.Completion

/-!
# Reachable sessions

A `Regime` says which events may be posted from outside and after which faults a run goes on. The
sessions it can reach are those of finished networks and what steps, interventions, waiting and
admitted events make of them. `Session.Turn` says what one step does to the instant and
`Session.Advance` what it does apart from the instants, and the loops only ever pass through
reachable sessions (`Session.through_runFor`, `Session.through_runUntil`). Under any regime the
records agree in every reachable session (`Reachable.orderly`), and nothing is kept for strangers
(`Reachable.pruned`).
-/

namespace FogNet

open Registry

/-! ## Regimes -/

/-- What may happen to a run from outside. -/
structure Regime where
  /-- The events that may be posted, by the current instant and that at which they are due. -/
  admits : Time → Time → Payload → Prop
  /-- The faults after which the run goes on. -/
  survives : Fault → Prop

namespace Regime

/-- Anything may be posted, and the run goes on whatever happens. -/
def unrestricted : Regime := ⟨fun _ _ _ => True, fun _ => True⟩

/-- No message is posted from outside; the run goes on whatever happens. -/
def undisturbed : Regime := ⟨fun _ _ p => p = .noop, fun _ => True⟩

/-- No message is posted from outside, and no step fails. -/
def flawless : Regime := ⟨fun _ _ p => p = .noop, fun _ => False⟩

end Regime

/-- The sessions that a regime can reach. -/
inductive Reachable (g : Regime) : Session World Payload → Prop where
  /-- A network is finished. -/
  | built {b : Builder} {s : Session World Payload} (hb : b.Made (g.admits 0))
      (h : b.build = .ok s) : Reachable g s
  /-- An event is handed out. -/
  | stepped {s s' : Session World Payload} {e : Option (Event Payload)} (hs : Reachable g s)
      (h : s.step World.handle = .ok e s') : Reachable g s'
  /-- Handing out an event fails, and the run goes on. -/
  | failed {s s' : Session World Payload} {fault : Fault} (hs : Reachable g s)
      (h : s.step World.handle = .error fault s') (hf : g.survives fault) : Reachable g s'
  /-- An event is posted from outside. -/
  | posted {s : Session World Payload} {due : Time} {p : Payload} (hs : Reachable g s)
      (h : g.admits s.simulation.clock due p) :
      Reachable g { s with simulation := s.simulation.schedule due p }
  /-- Time goes by up to an instant before the next event. -/
  | waited {s : Session World Payload} {time : Time} (hs : Reachable g s)
      (h : ∀ e ∈ s.simulation.queue.pending, time < e.time) : Reachable g (s.raiseClock time)
  /-- The network is changed from outside. -/
  | intervened {s : Session World Payload} {w : World} (hs : Reachable g s)
      (h : s.state.Intervention w) : Reachable g { s with state := w }

/-! ## What a step does -/

namespace Session

/-- What waits for delivery and when it is due, the most urgent first. -/
def entries (s : Session World Payload) : List (Time × Payload) := s.simulation.queue.entries

/-- The payloads that wait for delivery. -/
def payloads (s : Session World Payload) : List Payload := s.simulation.queue.payloads

/-- What one step makes of a session, to the instant. `ok` says whether the step succeeds. -/
inductive Turn (s : Session World Payload) (ok : Prop) (s' : Session World Payload) : Prop where
  /-- Nothing waits for delivery. -/
  | rests (hqueue : s.entries = []) (hsame : s' = s)
  /-- An event without a message passes. -/
  | passes {now : Time} {rest : List (Time × Payload)} (hqueue : s.entries = (now, .noop) :: rest)
      (hclock : s'.simulation.clock = now) (hrest : s'.entries = rest) (hworld : s'.state = s.state)
  /-- The receiver of a message or the node it names does not exist. -/
  | fails {now : Time} {sender receiver : EntityId} {msg : Message} {rest : List (Time × Payload)}
      (hok : ¬ ok) (hqueue : s.entries = (now, .deliver sender receiver msg) :: rest)
      (hclock : s'.simulation.clock = now)
      (hres : ¬ Change.Resolved s.state.registry receiver msg)
      (hrest : s'.entries = rest) (hregistry : s'.state.registry = s.state.registry)
  /-- The receiver of a message reacts, and its answers are posted as far as they can be. -/
  | reacts {now : Time} {sender receiver : EntityId} {msg : Message} {rest : List (Time × Payload)}
      {out sent : List Outgoing} {t : Touch}
      (hqueue : s.entries = (now, .deliver sender receiver msg) :: rest)
      (hclock : s'.simulation.clock = now)
      (hreact : Reaction s.state.settings s.state.broker now s.state.registry receiver msg out t)
      (hsent : sent <+: out) (hall : ok → sent = out)
      (hrest : s'.entries.Perm (sent.map (Outgoing.entry now) ++ rest))
      (hregistry : s'.state.registry = s.state.registry.touch t)

/-- What one step makes of a session. `ok` says whether the step succeeds. -/
inductive Advance (s : Session World Payload) (ok : Prop) (s' : Session World Payload) : Prop where
  /-- Nothing waits for delivery. -/
  | rests (hrest : s'.payloads = s.payloads) (hregistry : s'.state.registry = s.state.registry)
  /-- An event without a message passes. -/
  | passes {rest : List Payload} (hqueue : s.payloads = .noop :: rest)
      (hrest : s'.payloads = rest) (hregistry : s'.state.registry = s.state.registry)
  /-- The receiver of a message or the node it names does not exist. -/
  | fails {sender receiver : EntityId} {msg : Message} {rest : List Payload} (hok : ¬ ok)
      (hqueue : s.payloads = .deliver sender receiver msg :: rest)
      (hres : ¬ Change.Resolved s.state.registry receiver msg)
      (hrest : s'.payloads = rest) (hregistry : s'.state.registry = s.state.registry)
  /-- The receiver of a message reacts, and its answers are posted as far as they can be. -/
  | reacts {sender receiver : EntityId} {msg : Message} {rest : List Payload} {now : Time}
      {out sent : List Outgoing} {t : Touch}
      (hqueue : s.payloads = .deliver sender receiver msg :: rest)
      (hreact : Reaction s.state.settings s.state.broker now s.state.registry receiver msg out t)
      (hsent : sent <+: out) (hall : ok → sent = out)
      (hrest : s'.payloads.Perm (sent.map Outgoing.payload ++ rest))
      (hregistry : s'.state.registry = s.state.registry.touch t)

/-- The faults of a step: a receiver or a node that does not exist, an answer that cannot be posted,
or a violation that a check has found. -/
inductive FaultOf (s s' : Session World Payload) : Fault → Prop where
  /-- The receiver of a message or the node it names does not exist. -/
  | unresolved {sender receiver : EntityId} {msg : Message} {rest : List Payload} {fault : Fault}
      (hqueue : s.payloads = .deliver sender receiver msg :: rest)
      (hres : ¬ Change.Resolved s.state.registry receiver msg) : FaultOf s s' fault
  /-- An answer is due past the last instant. -/
  | pastTheEnd {now : Time} {delay : Nat} : FaultOf s s' (.schedule (.pastTheEnd now delay))
  /-- The records contradict each other. -/
  | violation {cause : Violation} (h : s'.state.inspect = .error cause) :
      FaultOf s s' (.violation cause)

variable {s s' : Session World Payload}

theorem payloads_eq (s : Session World Payload) : s.payloads = s.entries.map Prod.snd :=
  payloads_eq_map_entries _

theorem payloads_of_entries {now : Time} {p : Payload} {rest : List (Time × Payload)}
    (h : s.entries = (now, p) :: rest) : s.payloads = p :: rest.map Prod.snd := by
  rw [payloads_eq, h]
  rfl

/-- Without the instants, a turn is an advance. -/
theorem Turn.advance {ok : Prop} (h : s.Turn ok s') : s.Advance ok s' := by
  cases h with
  | rests _ hsame => exact .rests (hsame ▸ rfl) (hsame ▸ rfl)
  | passes hqueue _ hrest hworld =>
    exact .passes (payloads_of_entries hqueue) (by rw [payloads_eq, hrest]) (by rw [hworld])
  | fails hok hqueue _ hres hrest hregistry =>
    exact .fails hok (payloads_of_entries hqueue) hres (by rw [payloads_eq, hrest]) hregistry
  | reacts hqueue _ hreact hsent hall hrest hregistry =>
    exact .reacts (payloads_of_entries hqueue) hreact hsent hall (payloads_perm_of_entries hrest)
      hregistry

/-- What handing a message to its receiver does to the registry and to the queue, and how it can
fail. -/
theorem deliver_spec (now : Time) (entry : TraceEntry) {w : World} (q : EventQueue Payload)
    (hr : w.registry.Orderly) :
    (∃ fault g, World.deliver now entry ⟨w, q⟩ = .error fault g ∧
      ¬ Change.Resolved w.registry entry.receiver entry.message ∧ g.queue = q ∧
      g.state.registry = w.registry ∧ g.state.broker = w.broker ∧ g.state.settings = w.settings) ∨
    ∃ out sent t g, Reaction w.settings w.broker now w.registry entry.receiver entry.message out t ∧
      sent <+: out ∧ g.queue.entries.Perm (sent.map (Outgoing.entry now) ++ q.entries) ∧
      g.state.registry = w.registry.touch t ∧ g.state.broker = w.broker ∧
      g.state.settings = w.settings ∧
      (World.deliver now entry ⟨w, q⟩ = .ok () g ∧ sent = out ∨
        (∃ delay, World.deliver now entry ⟨w, q⟩ = .error (.schedule (.pastTheEnd now delay)) g) ∨
        ∃ cause, World.deliver now entry ⟨w, q⟩ = .error (.violation cause) g ∧
          g.state.inspect = .error cause) := by
  have hcases : Change.AnswersOrFails w.settings w.broker now w.registry entry.receiver
      entry.message (Change.react w.settings w.broker now entry.receiver entry.message) :=
    Change.react_cases hr entry.message
  rcases hcases with ⟨out, t, hreact, hreaction⟩ | ⟨hres, fault, hfail⟩
  · right
    obtain ⟨sent, hpre, hperm, hall, hend⟩ := postAll_spec now out q
    unfold World.deliver
    simp only [hreact]
    cases hpost : postAll now out q with
    | mk result queue =>
      rw [hpost] at hperm hall hend
      cases result with
      | error cause =>
        obtain ⟨delay, rfl⟩ := hend cause rfl
        exact ⟨out, sent, t, _, hreaction, hpre, hperm, rfl, rfl, rfl, .inr (.inl ⟨delay, rfl⟩)⟩
      | ok u =>
        refine ⟨out, sent, t, ⟨{ w with
          registry := w.registry.touch t, trace := w.trace.push entry }, queue⟩, hreaction, hpre,
          hperm, rfl, rfl, rfl, ?_⟩
        simp only
        cases hinspect : World.inspect { w with
            registry := w.registry.touch t, trace := w.trace.push entry } with
        | error cause => exact .inr (.inr ⟨cause, rfl, rfl⟩)
        | ok u' => exact .inl ⟨rfl, hall rfl⟩
  · left
    unfold World.deliver
    simp only [hfail]
    exact ⟨fault, _, rfl, hres, rfl, rfl, rfl, rfl⟩

/-- One step of a session in which the records agree: what it makes of it, and how it can fail. -/
theorem step_spec (hr : s.state.registry.Orderly) :
    (stateOf (s.step World.handle)).state.broker = s.state.broker ∧
      (stateOf (s.step World.handle)).state.settings = s.state.settings ∧
      s.Turn (∃ e q, s.step World.handle = .ok e q) (stateOf (s.step World.handle)) ∧
      ∀ fault q, s.step World.handle = .error fault q → s.FaultOf q fault := by
  unfold step
  cases hpop : s.simulation.queue.pop? with
  | none =>
    refine ⟨rfl, rfl, .rests ?_ rfl, fun _ _ h => nomatch h⟩
    unfold entries EventQueue.entries
    rw [EventQueue.pop?_eq_none_iff.1 hpop]
    rfl
  | some next =>
    obtain ⟨event, rest⟩ := next
    have hqueue : s.entries = (event.time, event.payload) :: rest.entries := by
      unfold entries EventQueue.entries
      rw [(EventQueue.pop?_eq_some_iff.1 hpop).1]
      rfl
    cases hp : event.payload with
    | noop =>
      have hhandle : World.handle event.time event ⟨s.state, rest⟩ = .ok () ⟨s.state, rest⟩ := by
        unfold World.handle TraceEntry.ofEvent?
        rw [hp]
        rfl
      simp only [hhandle]
      exact ⟨rfl, rfl, .passes (hp ▸ hqueue) rfl rfl rfl, fun _ _ h => nomatch h⟩
    | deliver sender receiver msg =>
      have hhandle : World.handle event.time event ⟨s.state, rest⟩ = World.deliver event.time
          ⟨event.time, event.id, sender, receiver, msg⟩ ⟨s.state, rest⟩ := by
        unfold World.handle TraceEntry.ofEvent?
        rw [hp]
      have hqueue : s.entries = (event.time, .deliver sender receiver msg) :: rest.entries :=
        hp ▸ hqueue
      have hpayloads : s.payloads = .deliver sender receiver msg :: rest.payloads := by
        rw [payloads_eq, hqueue, payloads_eq_map_entries]
        rfl
      simp only [hhandle]
      rcases deliver_spec event.time ⟨event.time, event.id, sender, receiver, msg⟩ rest hr with
        ⟨fault, g, hfail, hres, hg, hregistry, hbroker, hsettings⟩ |
        ⟨out, sent, t, g, hreaction, hpre, hperm, hregistry, hbroker, hsettings, hresult⟩
      · simp only [hfail]
        refine ⟨hbroker, hsettings, .fails (fun ⟨_, _, h⟩ => nomatch h) hqueue rfl hres ?_
          hregistry, fun _ _ _ => .unresolved hpayloads hres⟩
        exact congrArg EventQueue.entries hg
      · rcases hresult with ⟨hok, hall⟩ | ⟨delay, hend⟩ | ⟨cause, hviolation, hinspect⟩
        · simp only [hok]
          exact ⟨hbroker, hsettings,
            .reacts hqueue rfl hreaction hpre (fun _ => hall) hperm hregistry,
            fun _ _ h => nomatch h⟩
        · simp only [hend]
          refine ⟨hbroker, hsettings, .reacts hqueue rfl hreaction hpre
            (fun ⟨_, _, h⟩ => nomatch h) hperm hregistry, fun fault q h => ?_⟩
          cases h
          exact .pastTheEnd
        · simp only [hviolation]
          refine ⟨hbroker, hsettings, .reacts hqueue rfl hreaction hpre
            (fun ⟨_, _, h⟩ => nomatch h) hperm hregistry, fun fault q h => ?_⟩
          cases h
          exact .violation hinspect

theorem turn_of_ok {e : Option (Event Payload)} (hr : s.state.registry.Orderly)
    (h : s.step World.handle = .ok e s') :
    s.Turn True s' ∧ s'.state.broker = s.state.broker ∧ s'.state.settings = s.state.settings := by
  obtain ⟨hbroker, hsettings, hturn, -⟩ := step_spec hr
  rw [h] at hbroker hsettings hturn
  have hok : (∃ e' q, EStateM.Result.ok (ε := Fault) e s' = .ok e' q) = True :=
    eq_true ⟨e, s', rfl⟩
  rw [hok] at hturn
  exact ⟨hturn, hbroker, hsettings⟩

theorem advance_of_ok {e : Option (Event Payload)} (hr : s.state.registry.Orderly)
    (h : s.step World.handle = .ok e s') :
    s.Advance True s' ∧ s'.state.broker = s.state.broker :=
  ⟨(turn_of_ok hr h).1.advance, (turn_of_ok hr h).2.1⟩

theorem turn_of_error {fault : Fault} (hr : s.state.registry.Orderly)
    (h : s.step World.handle = .error fault s') :
    s.Turn False s' ∧ s'.state.broker = s.state.broker ∧ s.FaultOf s' fault := by
  obtain ⟨hbroker, -, hturn, hfault⟩ := step_spec hr
  have hfault := hfault fault s' h
  rw [h] at hbroker hturn
  have hok : (∃ e q, EStateM.Result.error fault s' =
      (.ok e q : EStateM.Result Fault (Session World Payload) (Option (Event Payload)))) = False :=
    eq_false fun ⟨_, _, h⟩ => nomatch h
  rw [hok] at hturn
  exact ⟨hturn, hbroker, hfault⟩

theorem advance_of_error {fault : Fault} (hr : s.state.registry.Orderly)
    (h : s.step World.handle = .error fault s') :
    s.Advance False s' ∧ s'.state.broker = s.state.broker ∧ s.FaultOf s' fault :=
  (turn_of_error hr h).imp_left Turn.advance

theorem Advance.orderly {ok : Prop} (h : s.Advance ok s') (hr : s.state.registry.Orderly) :
    s'.state.registry.Orderly := by
  cases h with
  | rests _ hregistry => rwa [hregistry]
  | passes _ _ hregistry => rwa [hregistry]
  | fails _ _ _ _ hregistry => rwa [hregistry]
  | reacts _ hreact _ _ _ hregistry =>
    rw [hregistry]
    exact hreact.orderly hr

theorem Advance.pruned {ok : Prop} (h : s.Advance ok s') (hp : s.state.registry.Pruned) :
    s'.state.registry.Pruned := by
  cases h with
  | rests _ hregistry => rwa [hregistry]
  | passes _ _ hregistry => rwa [hregistry]
  | fails _ _ _ _ hregistry => rwa [hregistry]
  | reacts _ hreact _ _ _ hregistry =>
    rw [hregistry]
    exact hreact.pruned hp

theorem Advance.kind {ok : Prop} (h : s.Advance ok s') (k : EntityId) :
    s'.state.registry.kind k = s.state.registry.kind k := by
  cases h with
  | rests _ hregistry => rw [hregistry]
  | passes _ _ hregistry => rw [hregistry]
  | fails _ _ _ _ hregistry => rw [hregistry]
  | reacts _ _ _ _ _ hregistry => rw [hregistry, kind_touch]

end Session

/-! ## What holds in every reachable session -/

variable {g : Regime} {s s' : Session World Payload}

/-- In every reachable session the records agree, and the broker is a broker. -/
theorem Reachable.sound (hs : Reachable g s) :
    s.state.registry.Orderly ∧ s.state.registry.kind s.state.broker = .ok .broker := by
  induction hs with
  | built hb h =>
    have hbuilt := Builder.built_of_build hb.draft h
    exact ⟨hbuilt.orderly, hbuilt.broker⟩
  | stepped _ h ih =>
    obtain ⟨hadvance, hbroker⟩ := Session.advance_of_ok ih.1 h
    exact ⟨hadvance.orderly ih.1, by rw [hadvance.kind, hbroker]; exact ih.2⟩
  | failed _ h _ ih =>
    obtain ⟨hadvance, hbroker, -⟩ := Session.advance_of_error ih.1 h
    exact ⟨hadvance.orderly ih.1, by rw [hadvance.kind, hbroker]; exact ih.2⟩
  | posted _ _ ih => exact ih
  | waited _ _ ih => exact ih
  | intervened _ h ih =>
    obtain ⟨t, ht, rfl⟩ := h.slight
    exact ⟨ht.orderly ih.1, by rw [kind_touch]; exact ih.2⟩

theorem Reachable.orderly (hs : Reachable g s) : s.state.registry.Orderly := hs.sound.1

theorem Reachable.broker (hs : Reachable g s) :
    s.state.registry.kind s.state.broker = .ok .broker := hs.sound.2

/-- In every reachable session nothing is kept for strangers. -/
theorem Reachable.pruned (hs : Reachable g s) : s.state.registry.Pruned := by
  induction hs with
  | built hb h => exact (Builder.built_of_build hb.draft h).pruned
  | stepped hs h ih => exact (Session.advance_of_ok hs.orderly h).1.pruned ih
  | failed hs h _ ih => exact (Session.advance_of_error hs.orderly h).1.pruned ih
  | posted _ _ ih => exact ih
  | waited _ _ ih => exact ih
  | intervened hs h ih => exact h.pruned hs.orderly.enrolled ih

/-! ## The loops -/

namespace Session

/-- A run through reachable sessions: it ends in one, or at a step from one that fails. -/
def Through (g : Regime) : EStateM.Result Fault (Session World Payload) Unit → Prop
  | .ok _ s => Reachable g s
  | .error fault s => ∃ q, Reachable g q ∧ q.step World.handle = .error fault s

theorem Ends.through {result : EStateM.Result Fault (Session World Payload) Unit}
    (h : Ends World.handle (Reachable g) result) : Through g result := by
  cases result with
  | ok u s => exact h
  | error fault s => exact h

theorem through_runFor (hs : Reachable g s) (max : Nat) :
    Through g (s.runFor World.handle max) :=
  (ends_runFor (fun _ _ _ hq h => hq.stepped h) hs max).through

theorem through_runWhile {accept : Event Payload → Bool} {budget : Nat}
    {result : EStateM.Result Fault (Session World Payload) Unit} (hs : Reachable g s)
    (h : s.runWhile World.handle accept budget = some result) : Through g result :=
  (ends_runWhile (fun _ _ _ hq h => hq.stepped h) hs h).through

theorem through_run {budget : Nat} {result : EStateM.Result Fault (Session World Payload) Unit}
    (hs : Reachable g s) (h : s.run World.handle budget = some result) : Through g result :=
  through_runWhile hs h

theorem through_runUntil {horizon : Time} {budget : Nat}
    {result : EStateM.Result Fault (Session World Payload) Unit} (hs : Reachable g s)
    (h : s.runUntil World.handle horizon budget = some result) : Through g result := by
  rw [runUntil_eq] at h
  obtain ⟨stopped, hrun, rfl⟩ := Option.map_eq_some_iff.1 h
  have hthrough := through_runWhile hs hrun
  cases stopped with
  | error fault q => exact hthrough
  | ok u q => exact Reachable.waited hthrough (later_of_runWhile hrun)

end Session

/-! ## A node that crosses a boundary -/

namespace Crossing

/-- A head lets a node go three ticks after the node has been taken over. -/
def settings : Settings := { Settings.standard with handoffDelay := 3, checkInvariants := true }

/-- A node of level zero that stays in the area of the two heads. -/
def node (name : String) (x : Float) (plan : MotionPlan) : NodeSpec :=
  ⟨name, 0, ⟨x, 5⟩, ⟨0, 0, 12, 10⟩, plan, .none⟩

/-- The head of the western half. -/
def west : EntityId := 2

/-- The head of the eastern half. -/
def east : EntityId := 3

/-- A node that walks east. -/
def walker : EntityId := 4

/-- A node that stays in the west. -/
def neighbour : EntityId := 5

/-- The two heads and the two nodes. -/
def draft (b : Builder) : Builder :=
  let b := stateOf (Builder.puddleHead "west" 0 (.rectangle 0 0 6 10) ⟨3, 5⟩ b)
  let b := stateOf (Builder.puddleHead "east" 0 (.rectangle 6 0 6 10) ⟨9, 5⟩ b)
  let b := stateOf (Builder.fogNode (node "walker" 5.5 (.velocity ⟨0.1, 0⟩)) b)
  stateOf (Builder.fogNode (node "neighbour" 3 .stationary) b)

/-- The network at its start. -/
def start : Except Fault (Session World Payload) :=
  match Builder.start settings with
  | .error fault => .error fault
  | .ok b => (draft b).build

/-- The network after some events. -/
def after (events : Nat) : Option (Session World Payload) :=
  match start with
  | .error _ => none
  | .ok s =>
    match s.runFor World.handle events with
    | .error _ _ => none
    | .ok _ s => some s

theorem made_draft {admits : Time → Payload → Prop} {c : Settings} {b : Builder}
    (h : Builder.start c = .ok b) : Builder.Made admits (draft b) :=
  ((((Builder.Made.start h).puddleHead _ _ _ _).puddleHead _ _ _ _).fogNode _).fogNode _

/-- The network at its start under some settings. -/
def startUnder (c : Settings) : Except Fault (Session World Payload) :=
  match Builder.start c with
  | .error fault => .error fault
  | .ok b => (draft b).build

theorem made_of_startUnder {admits : Time → Payload → Prop} {c : Settings}
    (h : startUnder c = .ok s) : ∃ b, Builder.Made admits b ∧ b.build = .ok s := by
  unfold startUnder at h
  cases hstart : Builder.start c with
  | error fault =>
    rw [hstart] at h
    cases h
  | ok b =>
    rw [hstart] at h
    exact ⟨draft b, made_draft hstart, h⟩

theorem made_of_start {admits : Time → Payload → Prop} (h : start = .ok s) :
    ∃ b, Builder.Made admits b ∧ b.build = .ok s := by
  have hunder : start = startUnder settings := by
    unfold start startUnder
    rfl
  exact made_of_startUnder (hunder.symm.trans h)

theorem isSome_start : start.toOption.isSome = true := by decide +kernel

/-- The network at its start. -/
def first : Session World Payload := start.toOption.get isSome_start

theorem start_eq : start = .ok first := eq_ok_of_toOption (Option.some_get isSome_start).symm

theorem reachable_of_start (h : start = .ok s) : Reachable g s :=
  (made_of_start h).elim fun _ ⟨hb, h⟩ => .built hb h

theorem runFor_of_after {q : Session World Payload} {events : Nat} (hstart : start = .ok q)
    (h : after events = some s) : q.runFor World.handle events = .ok () s := by
  unfold after at h
  rw [hstart] at h
  dsimp only at h
  cases hrun : q.runFor World.handle events with
  | error fault s' =>
    rw [hrun] at h
    cases h
  | ok u s' =>
    rw [hrun] at h
    obtain rfl := Option.some.inj h
    rfl

theorem reachable_of_after {events : Nat} (h : after events = some s) : Reachable g s := by
  cases hstart : start with
  | error fault =>
    unfold after at h
    rw [hstart] at h
    cases h
  | ok first =>
    have hthrough := Session.through_runFor (reachable_of_start (g := g) hstart) events
    rwa [runFor_of_after hstart h] at hthrough

theorem isSome_after_three : (after 3).isSome = true := by decide +kernel

/-- The network while the walker is handed over: the east has taken it over, and the west has still
to let it go. -/
def handover : Session World Payload := (after 3).get isSome_after_three

theorem reachable_handover : Reachable g handover :=
  reachable_of_after (Option.some_get isSome_after_three).symm

end Crossing

end FogNet
