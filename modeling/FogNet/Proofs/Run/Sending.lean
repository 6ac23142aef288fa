import FogNet.Proofs.Run.History
import Mathlib.Logic.Relation

/-!
# Who has sent what

`Session.Next` is one move of a run: a step, successful or not, or something done from outside. In a
step either the receiver of the next message reacts to it or nothing happens
(`Session.reacts_or_idles`), and what is done from outside hardly touches the records
(`Session.Nudged`); what waits afterwards has waited before or is new (`EventQueue.Grows`). So every
message that waits is a first timer, comes from outside or was posted in one of the steps of the run
(`History.origin`), and in no more than one of them, as all events have got different numbers.
-/

namespace FogNet

open Registry

/-! ## Queues that grow -/

/-- What waits in a later queue has waited before, or it has a new number and carries one of some
payloads. -/
structure EventQueue.Grows (q : EventQueue Payload) (new : Payload → Prop)
    (q' : EventQueue Payload) : Prop where
  /-- Numbers are used up. -/
  nextId : q.nextId ≤ q'.nextId
  /-- What waits is old or new. -/
  pending : ∀ e ∈ q'.pending, e ∈ q.pending ∨ q.nextId ≤ e.id ∧ new e.payload

namespace EventQueue.Grows

variable {q q' q'' : EventQueue Payload} {new new' : Payload → Prop}

theorem refl : q.Grows new q := ⟨Nat.le_refl _, fun _ he => .inl he⟩

theorem trans (h : q.Grows new q') (h' : q'.Grows new q'') : q.Grows new q'' := by
  refine ⟨Nat.le_trans h.nextId h'.nextId, fun e he => ?_⟩
  rcases h'.pending e he with hold | ⟨hid, hnew⟩
  · exact h.pending e hold
  · exact .inr ⟨Nat.le_trans h.nextId hid, hnew⟩

theorem mono (h : q.Grows new q') (hnew : ∀ p, new p → new' p) : q.Grows new' q' :=
  ⟨h.nextId, fun e he => (h.pending e he).imp_right (And.imp_right (hnew _))⟩

theorem pop {e : Event Payload} (h : q.pop? = some (e, q')) : q.Grows new q' := by
  obtain ⟨hpending, hid⟩ := EventQueue.pop?_eq_some_iff.1 h
  refine ⟨Nat.le_of_eq hid, fun d hd => .inl ?_⟩
  rw [hpending]
  exact List.mem_cons_of_mem _ hd

theorem post {due : Time} {p : Payload} (hp : new p) : q.Grows new (q.post due p) := by
  refine ⟨Nat.le_succ _, fun e he => ?_⟩
  rcases mem_placeEvent.1 he with rfl | he
  · exact .inr ⟨Nat.le_refl _, hp⟩
  · exact .inl he

theorem postAll (now : Time) (out : List Outgoing) (q : EventQueue Payload) :
    q.Grows (fun p => ∃ o ∈ out, p = o.payload) (FogNet.postAll now out q).2 := by
  induction out generalizing q with
  | nil => exact refl
  | cons o rest ih =>
    unfold FogNet.postAll EventQueue.postAfter
    cases now.plus? o.delay with
    | none => exact refl
    | some due =>
      refine trans (post ⟨o, List.mem_cons_self, rfl⟩) ((ih _).mono ?_)
      rintro p ⟨a, ha, hp⟩
      exact ⟨a, List.mem_cons_of_mem _ ha, hp⟩

end EventQueue.Grows

/-! ## Moves -/

/-- One move of a run under a regime. -/
inductive Session.Next (g : Regime) (s : Session World Payload) : Session World Payload → Prop where
  /-- An event is handed out, if one waits. -/
  | stepped {s' : Session World Payload} {e : Option (Event Payload)}
      (h : s.step World.handle = .ok e s') : Next g s s'
  /-- Handing out an event fails, and the run goes on. -/
  | failed {s' : Session World Payload} {fault : Fault} (h : s.step World.handle = .error fault s')
      (hf : g.survives fault) : Next g s s'
  /-- An event is posted from outside. -/
  | posted {due : Time} {p : Payload} (h : g.admits s.simulation.clock due p) :
      Next g s { s with simulation := s.simulation.schedule due p }
  /-- Time goes by up to an instant before the next event. -/
  | waited {time : Time} (h : ∀ e ∈ s.simulation.queue.pending, time < e.time) :
      Next g s (s.raiseClock time)
  /-- The network is changed from outside. -/
  | intervened {w : World} (h : s.state.Intervention w) : Next g s { s with state := w }

namespace Session

/-- The sessions that a run under a regime can get to from a given one. -/
abbrev Onward (g : Regime) : Session World Payload → Session World Payload → Prop :=
  Relation.ReflTransGen (Session.Next g)

/-- The session that the next step leads to, successful or not. -/
def afterStep (s : Session World Payload) : Session World Payload := stateOf (s.step World.handle)

/-- What is done from outside leaves numbers, lists, ties and changes as they are. -/
structure Nudged (g : Regime) (s s' : Session World Payload) : Prop where
  /-- The records are hardly touched. -/
  registry : ∃ t : Touch, t.Slight ∧ s'.state.registry = s.state.registry.touch t
  /-- The broker is the same. -/
  broker : s'.state.broker = s.state.broker
  /-- The routing graph is the same. -/
  graph : s'.state.graph = s.state.graph
  /-- The constants are the same. -/
  settings : s'.state.settings = s.state.settings
  /-- What is posted may be posted. -/
  queue : s.simulation.queue.Grows (fun p => ∃ now due, g.admits now due p) s'.simulation.queue

variable {g : Regime} {s s' : Session World Payload}

theorem afterStep_of_ok {e : Option (Event Payload)} (h : s.step World.handle = .ok e s') :
    s.afterStep = s' := by
  unfold afterStep
  rw [h]
  rfl

theorem afterStep_of_error {fault : Fault} (h : s.step World.handle = .error fault s') :
    s.afterStep = s' := by
  unfold afterStep
  rw [h]
  rfl

namespace Nudged

theorem posted {due : Time} {p : Payload} (h : g.admits s.simulation.clock due p) :
    s.Nudged g { s with simulation := s.simulation.schedule due p } :=
  ⟨⟨.nothing, .nothing, (touch_nothing _).symm⟩, rfl, rfl, rfl, .post ⟨_, _, h⟩⟩

theorem waited (time : Time) : s.Nudged g (s.raiseClock time) :=
  ⟨⟨.nothing, .nothing, (touch_nothing _).symm⟩, rfl, rfl, rfl, .refl⟩

theorem intervened {w : World} (h : s.state.Intervention w) : s.Nudged g { s with state := w } := by
  obtain ⟨t, ht, rfl⟩ := h.slight
  exact ⟨⟨t, ht, rfl⟩, rfl, rfl, rfl, .refl⟩

theorem standsAt_iff {k : EntityId} {standing : Standing} (h : s.Nudged g s') :
    s'.state.registry.StandsAt k standing ↔ s.state.registry.StandsAt k standing := by
  obtain ⟨t, ht, hregistry⟩ := h.registry
  rw [hregistry]
  constructor
  · rintro ⟨m, hm, hs⟩
    obtain ⟨n, hn, rfl⟩ := fogNode_touch_iff.1 hm
    exact ⟨n, hn, (ht.node k n).1.symm.trans hs⟩
  · rintro ⟨n, hn, hs⟩
    exact ⟨_, fogNode_touch hn, (ht.node k n).1.trans hs⟩

end Nudged

theorem Next.cases (h : s.Next g s') : s' = s.afterStep ∨ s.Nudged g s' := by
  cases h with
  | stepped h => exact .inl (afterStep_of_ok h).symm
  | failed h _ => exact .inl (afterStep_of_error h).symm
  | posted h => exact .inr (.posted h)
  | waited _ => exact .inr (.waited _)
  | intervened h => exact .inr (.intervened h)

/-- A loop that does not fail moves on. -/
theorem onward_runFor {max : Nat} {u : Unit} (h : s.runFor World.handle max = .ok u s') :
    s.Onward g s' := by
  have hends : Ends World.handle (s.Onward g) (s.runFor World.handle max) :=
    ends_runFor (fun _ _ _ hq h => hq.tail (.stepped h)) .refl max
  rwa [h] at hends

/-- If a run goes on whatever happens, the next step is a move of it. -/
theorem Next.afterStep (hg : ∀ fault, g.survives fault) : s.Next g s.afterStep := by
  unfold Session.afterStep
  cases h : s.step World.handle with
  | ok e q => exact .stepped h
  | error fault q => exact .failed h (hg fault)

end Session

variable {g : Regime} {s s' : Session World Payload}

theorem Reachable.next (hs : Reachable g s) (h : s.Next g s') : Reachable g s' := by
  cases h with
  | stepped h => exact hs.stepped h
  | failed h hf => exact hs.failed h hf
  | posted h => exact hs.posted h
  | waited h => exact hs.waited h
  | intervened h => exact hs.intervened h

theorem Reachable.onward (hs : Reachable g s) (h : s.Onward g s') : Reachable g s' := by
  induction h with
  | refl => exact hs
  | tail _ hnext ih => exact ih.next hnext

/-- What holds at the start and is kept by every move holds in all reachable sessions. -/
theorem Reachable.invariant {P : Session World Payload → Prop} (hs : Reachable g s)
    (hbuilt : ∀ {b : Builder} {s}, b.Made (g.admits 0) → b.build = .ok s → P s)
    (hnext : ∀ {s s'}, Reachable g s → s.Next g s' → P s → P s') : P s := by
  induction hs with
  | built hb h => exact hbuilt hb h
  | stepped hs h ih => exact hnext hs (.stepped h) ih
  | failed hs h hf ih => exact hnext hs (.failed h hf) ih
  | posted hs h ih => exact hnext hs (.posted h) ih
  | waited hs h ih => exact hnext hs (.waited h) ih
  | intervened hs h ih => exact hnext hs (.intervened h) ih

/-- What holds at the start, is kept by every step and does not depend on what is done from outside
holds in all histories. -/
theorem History.invariant {P : List (Session World Payload) → Session World Payload → Prop}
    {past : List (Session World Payload)} (hs : History g past s)
    (hbuilt : ∀ {b : Builder} {s}, b.Made (g.admits 0) → b.build = .ok s → P [] s)
    (hstep : ∀ {past s}, History g past s → Reachable g s.afterStep → P past s →
      P (s :: past) s.afterStep)
    (hnudge : ∀ {past s s'}, s.Nudged g s' → P past s → P past s') : P past s := by
  induction hs with
  | built hb h => exact hbuilt hb h
  | stepped hs h ih =>
    obtain rfl := Session.afterStep_of_ok h
    exact hstep hs (hs.reachable.stepped h) ih
  | failed hs h hf ih =>
    obtain rfl := Session.afterStep_of_error h
    exact hstep hs (hs.reachable.failed h hf) ih
  | posted _ h ih => exact hnudge (.posted h) ih
  | waited _ _ ih => exact hnudge (.waited _) ih
  | intervened _ h ih => exact hnudge (.intervened h) ih

/-! ## Steps -/

section Handler

variable {w : World} {q : EventQueue Payload} {now : Time} {e : Event Payload} {out : List Outgoing}
  {r : Registry} {fault : Fault} {sender receiver : EntityId} {msg : Message}

theorem World.stateOf_handle_of_noop {stage : Stage World Payload} (hp : e.payload = .noop) :
    stateOf (World.handle now e stage) = stage := by
  unfold World.handle TraceEntry.ofEvent?
  rw [hp]
  rfl

theorem World.handle_of_deliver {stage : Stage World Payload}
    (hp : e.payload = .deliver sender receiver msg) :
    World.handle now e stage = World.deliver now ⟨now, e.id, sender, receiver, msg⟩ stage := by
  unfold World.handle TraceEntry.ofEvent?
  rw [hp]

/-- Answers are posted as far as they can be, whether the records agree afterwards or not. -/
theorem World.handle_of_answer (hp : e.payload = .deliver sender receiver msg)
    (h : Change.react w.settings w.broker now receiver msg w.registry = .ok out r) :
    (stateOf (World.handle now e ⟨w, q⟩)).state.registry = r ∧
      (stateOf (World.handle now e ⟨w, q⟩)).queue = (postAll now out q).2 := by
  rw [World.handle_of_deliver hp]
  unfold World.deliver
  simp only [h]
  cases postAll now out q with
  | mk result queue =>
    cases result with
    | error cause => exact ⟨rfl, rfl⟩
    | ok u =>
      simp only
      split <;> exact ⟨rfl, rfl⟩

theorem World.handle_of_fault (hp : e.payload = .deliver sender receiver msg)
    (h : Change.react w.settings w.broker now receiver msg w.registry = .error fault r) :
    (stateOf (World.handle now e ⟨w, q⟩)).state.registry = r ∧
      (stateOf (World.handle now e ⟨w, q⟩)).queue = q := by
  rw [World.handle_of_deliver hp]
  unfold World.deliver
  simp only [h]
  exact ⟨rfl, rfl⟩

/-- No event changes the routing graph. -/
theorem World.graph_handle (now : Time) (e : Event Payload) (stage : Stage World Payload) :
    (stateOf (World.handle now e stage)).state.graph = stage.state.graph := by
  cases hp : e.payload with
  | noop => rw [World.stateOf_handle_of_noop hp]
  | deliver sender receiver msg =>
    rw [World.handle_of_deliver hp]
    unfold World.deliver
    dsimp only
    cases Change.react stage.state.settings stage.state.broker now receiver msg
      stage.state.registry with
    | error fault r => rfl
    | ok out r =>
      dsimp only
      cases postAll now out stage.queue with
      | mk result queue =>
        cases result with
        | error cause => rfl
        | ok u =>
          dsimp only
          split <;> rfl

end Handler

namespace Session

variable {e d : Event Payload} {receiver id : EntityId} {msg msg' : Message}

/-- The next event is to deliver a message. -/
def Delivers (s : Session World Payload) (e : Event Payload) (receiver : EntityId) (msg : Message) :
    Prop :=
  s.simulation.queue.peek? = some e ∧ ∃ sender, e.payload = .deliver sender receiver msg

/-- The next event delivers a message, and its receiver reacts to it. -/
structure Reacts (s : Session World Payload) (e : Event Payload) (receiver : EntityId)
    (msg : Message) (out : List Outgoing) (t : Touch) : Prop where
  /-- The event delivers the message. -/
  delivers : s.Delivers e receiver msg
  /-- What the receiver does. -/
  reaction : Reaction s.state.settings s.state.broker e.time s.state.registry receiver msg out t
  /-- What becomes of the registry. -/
  registry : s.afterStep.state.registry = s.state.registry.touch t
  /-- What waits afterwards has waited before or is an answer. -/
  queue : s.simulation.queue.Grows (fun p => ∃ o ∈ out, p = o.payload) s.afterStep.simulation.queue

/-- The next step changes no record and sends nothing. -/
structure Idles (s : Session World Payload) : Prop where
  /-- No record changes. -/
  registry : s.afterStep.state.registry = s.state.registry
  /-- Nothing is sent. -/
  queue : s.simulation.queue.Grows (fun _ => False) s.afterStep.simulation.queue
  /-- If the next message is about somebody, its receiver or who it names does not exist. -/
  unresolved : ∀ {e receiver msg}, s.Delivers e receiver msg →
    ¬ Change.Resolved s.state.registry receiver msg

theorem Delivers.unique (h : s.Delivers e receiver msg) (h' : s.Delivers d id msg') :
    d = e ∧ id = receiver ∧ msg' = msg := by
  obtain ⟨hpeek, sender, he⟩ := h
  obtain ⟨hpeek', sender', hd⟩ := h'
  obtain rfl := Option.some.inj (hpeek.symm.trans hpeek')
  rw [he] at hd
  cases hd
  exact ⟨rfl, rfl, rfl⟩

theorem Delivers.mem_pending (h : s.Delivers e receiver msg) : e ∈ s.simulation.queue.pending :=
  List.mem_of_mem_head? h.1

theorem peek?_of_pop {rest : EventQueue Payload} (hpop : s.simulation.queue.pop? = some (e, rest)) :
    s.simulation.queue.peek? = some e := by
  unfold EventQueue.peek?
  rw [(EventQueue.pop?_eq_some_iff.1 hpop).1]
  rfl

theorem afterStep_of_pop {rest : EventQueue Payload}
    (hpop : s.simulation.queue.pop? = some (e, rest)) :
    s.afterStep = s.afterEvent e.time (stateOf (World.handle e.time e ⟨s.state, rest⟩)) := by
  unfold afterStep step
  simp only [hpop]
  cases World.handle e.time e ⟨s.state, rest⟩ <;> rfl

theorem Idles.of_empty (hpop : s.simulation.queue.pop? = none) : s.Idles := by
  have hafter : s.afterStep = s := by
    unfold afterStep step
    rw [hpop]
    rfl
  refine ⟨by rw [hafter], by rw [hafter]; exact .refl, fun hdelivers => ?_⟩
  have hin := hdelivers.mem_pending
  rw [EventQueue.pop?_eq_none_iff.1 hpop] at hin
  cases hin

theorem Idles.of_noop {rest : EventQueue Payload} (hpop : s.simulation.queue.pop? = some (e, rest))
    (hp : e.payload = .noop) : s.Idles := by
  have hafter := afterStep_of_pop hpop
  rw [World.stateOf_handle_of_noop hp] at hafter
  refine ⟨by rw [hafter]; rfl, by rw [hafter]; exact .pop hpop, fun ⟨hpeek, _, he⟩ => ?_⟩
  rw [← Option.some.inj ((peek?_of_pop hpop).symm.trans hpeek), hp] at he
  cases he

theorem afterStep_graph (s : Session World Payload) :
    s.afterStep.state.graph = s.state.graph := by
  cases hpop : s.simulation.queue.pop? with
  | none =>
    unfold afterStep step
    rw [hpop]
    rfl
  | some next =>
    obtain ⟨e, rest⟩ := next
    rw [afterStep_of_pop hpop]
    exact World.graph_handle _ _ _

/-- In the next step the receiver of a message reacts, or nothing happens. -/
theorem reacts_or_idles (hr : s.state.registry.Orderly) :
    (∃ e receiver msg out t, s.Reacts e receiver msg out t) ∨ s.Idles := by
  cases hpop : s.simulation.queue.pop? with
  | none => exact .inr (.of_empty hpop)
  | some next =>
    obtain ⟨e, rest⟩ := next
    cases hp : e.payload with
    | noop => exact .inr (.of_noop hpop hp)
    | deliver sender receiver msg =>
      have hdelivers : s.Delivers e receiver msg := ⟨peek?_of_pop hpop, sender, hp⟩
      have hafter := afterStep_of_pop hpop
      have hcases : Change.AnswersOrFails s.state.settings s.state.broker e.time s.state.registry
          receiver msg _ := Change.react_cases hr msg
      rcases hcases with ⟨out, t, hreact, hreaction⟩ | ⟨hres, fault, hfail⟩
      · obtain ⟨hregistry, hqueue⟩ := World.handle_of_answer (q := rest) hp hreact
        have hanswers : s.afterStep.simulation.queue = (postAll e.time out rest).2 := by
          rw [hafter]
          exact hqueue
        refine .inl ⟨e, receiver, msg, out, t, hdelivers, hreaction, ?_, ?_⟩
        · rw [hafter]
          exact hregistry
        · rw [hanswers]
          exact .trans (.pop hpop) (.postAll _ _ _)
      · obtain ⟨hregistry, hqueue⟩ := World.handle_of_fault (q := rest) hp hfail
        have hrest : s.afterStep.simulation.queue = rest := by
          rw [hafter]
          exact hqueue
        refine .inr ⟨?_, ?_, fun h => ?_⟩
        · rw [hafter]
          exact hregistry
        · rw [hrest]
          exact .pop hpop
        · obtain ⟨-, rfl, rfl⟩ := hdelivers.unique h
          exact hres

theorem afterStep_broker (hr : s.state.registry.Orderly) :
    s.afterStep.state.broker = s.state.broker :=
  (step_spec hr).1

theorem afterStep_kind (hr : s.state.registry.Orderly) (k : EntityId) :
    s.afterStep.state.registry.kind k = s.state.registry.kind k := by
  rcases reacts_or_idles hr with ⟨e, receiver, msg, out, t, hreacts⟩ | hidles
  · rw [hreacts.registry, kind_touch]
  · rw [hidles.registry]

/-! ## Who has posted an event -/

/-- The next step sends the message that an event carries. -/
structure Posts (s : Session World Payload) (e : Event Payload) : Prop where
  /-- The event waits afterwards. -/
  waits : e ∈ s.afterStep.simulation.queue.pending
  /-- Its number has not been given before. -/
  isNew : s.simulation.queue.nextId ≤ e.id
  /-- It carries an answer to the message that the step hands out. -/
  answer : ∃ d receiver msg out t, s.Reacts d receiver msg out t ∧ ∃ o ∈ out, e.payload = o.payload

/-- What waits after a step has waited before, or the step has sent it. -/
theorem mem_pending_afterStep (hr : s.state.registry.Orderly)
    (he : e ∈ s.afterStep.simulation.queue.pending) :
    e ∈ s.simulation.queue.pending ∨ s.Posts e := by
  rcases reacts_or_idles hr with ⟨d, receiver, msg, out, t, hreacts⟩ | hidles
  · refine (hreacts.queue.pending e he).imp_right ?_
    rintro ⟨hid, ho⟩
    exact ⟨he, hid, d, receiver, msg, out, t, hreacts, ho⟩
  · exact (hidles.queue.pending e he).imp_right fun h => False.elim h.2

theorem nextId_le_afterStep (hr : s.state.registry.Orderly) :
    s.simulation.queue.nextId ≤ s.afterStep.simulation.queue.nextId := by
  rcases reacts_or_idles hr with ⟨d, receiver, msg, out, t, hreacts⟩ | hidles
  · exact hreacts.queue.nextId
  · exact hidles.queue.nextId

end Session

variable {past : List (Session World Payload)} {e : Event Payload}

/-- Whatever waits for delivery is a first timer, has been posted from outside or was sent in one of
the steps of the run. -/
theorem History.origin (hs : History g past s) (he : e ∈ s.simulation.queue.pending) :
    (∃ k, e.payload = .deliver k k .updateLocation) ∨ (∃ now due, g.admits now due e.payload) ∨
      ∃ q ∈ past, q.Posts e := by
  refine hs.invariant (P := fun past s => e ∈ s.simulation.queue.pending →
    (∃ k, e.payload = .deliver k k .updateLocation) ∨ (∃ now due, g.admits now due e.payload) ∨
      ∃ q ∈ past, q.Posts e) ?_ ?_ ?_ he
  · intro b s hb h he
    have hp := (Builder.built_of_build hb.draft h).payloads _ (List.mem_map_of_mem he)
    rcases hp with ⟨k, n, -, hp⟩ | ⟨due, hdue⟩
    · exact .inl ⟨k, hp⟩
    · exact .inr (.inl ⟨0, due, hdue⟩)
  · intro past s hs _ ih he
    rcases Session.mem_pending_afterStep hs.reachable.orderly he with hold | hposts
    · exact (ih hold).imp_right (Or.imp_right fun ⟨q, hq, h⟩ => ⟨q, List.mem_cons_of_mem _ hq, h⟩)
    · exact .inr (.inr ⟨s, List.mem_cons_self, hposts⟩)
  · intro past s s' hnudged ih he
    rcases hnudged.queue.pending e he with hold | ⟨-, hadmits⟩
    · exact ih hold
    · exact .inr (.inl hadmits)

/-- The events that the steps of a run have posted have got their numbers. -/
theorem History.id_lt_of_posts {q : Session World Payload} (hs : History g past s) (hq : q ∈ past)
    (h : q.Posts e) : e.id < s.simulation.queue.nextId := by
  refine hs.invariant (P := fun past s => q ∈ past → e.id < s.simulation.queue.nextId) ?_ ?_ ?_ hq
  · exact fun _ _ hq => nomatch hq
  · intro past s hs _ ih hq
    -- the queue knows the numbers of the events that wait in it
    rcases List.mem_cons.1 hq with rfl | hq
    · exact q.afterStep.simulation.queue.fresh e h.waits
    · exact Nat.lt_of_lt_of_le (ih hq) (Session.nextId_le_afterStep hs.reachable.orderly)
  · exact fun hnudged ih hq => Nat.lt_of_lt_of_le (ih hq) hnudged.queue.nextId

end FogNet
