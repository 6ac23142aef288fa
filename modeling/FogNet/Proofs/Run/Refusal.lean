import FogNet.Proofs.Kernel.Routine
import FogNet.Proofs.Run.History

/-!
# Refused messages

A message that names somebody who does not exist, or is something else than it should be, is refused
as a whole. The records agree in every reachable session, so whatever a reaction looks up after its
first change is there, and a reaction that fails has changed nothing
(`World.handle_of_misdirected`). What remains is the entry in the trace, and no reaction reads the
trace: runs go on as if the event had carried no message, but for that entry
(`Session.Mirrors.of_interject`). Together this is `Reachable.refused`.
-/

namespace FogNet

/-- A number stands for nobody, or for an entity of another kind. -/
inductive Fault.Misdirected : Fault → Prop where
  /-- It stands for nobody. -/
  | unknown (id : EntityId) : Misdirected (.unknownEntity id)
  /-- It stands for an entity of another kind. -/
  | mistaken (id : EntityId) (expected found : EntityKind) :
    Misdirected (.kindMismatch id expected found)

/-! ## The trace is not read -/

namespace World

/-- A world whose trace begins with some more entries. -/
def prefaced (entries : Array TraceEntry) (w : World) : World :=
  { w with trace := entries ++ w.trace }

/-- A world with an entry put into its trace at a position. -/
def interject (position : Nat) (entry : TraceEntry) (w : World) : World :=
  { w with trace := (w.trace.toList.insertIdx position entry).toArray }

variable {w : World} {entries : Array TraceEntry} {entry : TraceEntry} {now : Time}
  {event : Event Payload}

/-- An entry put behind the first ones is the last of those that the trace begins with. -/
theorem interject_prefaced (w : World) (entries : Array TraceEntry) (entry : TraceEntry) :
    (w.prefaced entries).interject entries.size entry = w.prefaced (entries.push entry) := by
  have hlist : ∀ l rest : List TraceEntry,
      (l ++ rest).insertIdx l.length entry = l ++ entry :: rest := by
    intro l rest
    induction l with
    | nil => rfl
    | cons a l ih => exact congrArg (a :: ·) ih
  have htrace : ((entries ++ w.trace).toList.insertIdx entries.size entry).toArray =
      entries.push entry ++ w.trace := by
    refine Array.ext' ?_
    rw [Array.toList_append, ← Array.length_toList, hlist, Array.toList_append, Array.toList_push,
      List.append_assoc, List.singleton_append]
  unfold interject prefaced
  rw [htrace]

/-- What comes of an event does not depend on what has been recorded before. -/
theorem handle_prefaced (entries : Array TraceEntry) (now : Time) (event : Event Payload)
    (g : Stage World Payload) :
    resultMap (Stage.map (prefaced entries)) (handle now event g) =
      handle now event (g.map (prefaced entries)) := by
  unfold handle
  cases TraceEntry.ofEvent? now event with
  | none => rfl
  | some entry =>
    unfold deliver Stage.map prefaced
    dsimp only
    rw [← Array.append_push]
    cases Change.react g.state.settings g.state.broker now entry.receiver entry.message
        g.state.registry with
    | error fault registry => rfl
    | ok outgoing registry =>
      dsimp only
      cases postAll now outgoing g.queue with
      | mk outcome queue =>
        cases outcome with
        | error cause => rfl
        | ok u =>
          unfold inspect
          dsimp only
          cases (if g.state.settings.checkInvariants then registry.checkAll else .ok () :
            Except Violation Unit) <;> rfl

end World

namespace Session

/-- Whatever is handed out next, one session becomes what another one becomes, but for a change of
the world. -/
structure Mirrors (f : World → World) (s q : Session World Payload) : Prop where
  /-- For one event. -/
  step : q.step World.handle = resultMap (map f) (s.step World.handle)
  /-- For a number of events. -/
  runFor : ∀ max, q.runFor World.handle max = resultMap (map f) (s.runFor World.handle max)
  /-- For all events. -/
  run : ∀ budget, q.run World.handle budget =
    (s.run World.handle budget).map (resultMap (map f))
  /-- For all events up to an instant. -/
  runUntil : ∀ horizon budget, q.runUntil World.handle horizon budget =
    (s.runUntil World.handle horizon budget).map (resultMap (map f))

/-- A session with one more entry before the rest of its trace mirrors the session without it. -/
theorem Mirrors.of_interject (m : Simulation Payload) (w : World) (entry : TraceEntry) :
    Mirrors (World.interject w.trace.size entry) ⟨m, w⟩
      ⟨m, { w with trace := w.trace.push entry }⟩ := by
  -- both are one session without a trace, with different entries put before
  let blank : Session World Payload := ⟨m, { w with trace := #[] }⟩
  have hw : (⟨m, w⟩ : Session World Payload) = blank.map (World.prefaced w.trace) := by
    unfold map World.prefaced
    rw [Array.append_empty]
  have hpushed : (⟨m, { w with trace := w.trace.push entry }⟩ : Session World Payload) =
      blank.map (World.prefaced (w.trace.push entry)) := by
    unfold map World.prefaced
    rw [Array.append_empty]
  have hcomp : (map (World.prefaced (w.trace.push entry)) :
      Session World Payload → Session World Payload) =
        map (World.interject w.trace.size entry) ∘ map (World.prefaced w.trace) := by
    funext s
    exact congrArg (Session.mk s.simulation)
      (World.interject_prefaced s.state w.trace entry).symm
  have hhandle := World.handle_prefaced
  rw [hw, hpushed]
  refine ⟨?_, fun max => ?_, fun budget => ?_, fun horizon budget => ?_⟩
  · rw [← map_step (hhandle _), ← map_step (hhandle _), resultMap_resultMap, hcomp]
  · rw [← map_runFor (hhandle _), ← map_runFor (hhandle _), resultMap_resultMap, hcomp]
  · unfold Session.run
    rw [← map_runWhile (hhandle _), ← map_runWhile (hhandle _), Option.map_map, hcomp]
    exact congrArg (Option.map · _) (funext fun _ => (resultMap_resultMap _ _ _).symm)
  · rw [← map_runUntil (hhandle _), ← map_runUntil (hhandle _), Option.map_map, hcomp]
    exact congrArg (Option.map · _) (funext fun _ => (resultMap_resultMap _ _ _).symm)

end Session

/-! ## Refusals -/

/-- Where the records agree, a reaction that meets somebody who is not there changes nothing. -/
theorem Change.react_of_misdirected {s : Settings} {broker : EntityId} {now : Time}
    {r q : Registry} {id : EntityId} {msg : Message} {fault : Fault} (hr : r.Orderly)
    (h : react s broker now id msg r = .error fault q) : q = r := by
  have hcases : AnswersOrFails s broker now r id msg (react s broker now id msg) :=
    react_cases hr msg
  rcases hcases with ⟨out, t, hok, -⟩ | ⟨-, cause, herror⟩
  · rw [hok] at h
    cases h
  · rw [herror] at h
    cases h
    rfl

/-- Where the records agree, a refused message leaves an entry in the trace and nothing else. -/
theorem World.handle_of_misdirected {w : World} {now : Time} {event : Event Payload}
    {q : EventQueue Payload} {fault : Fault} {g : Stage World Payload} (hr : w.registry.Orderly)
    (hfault : fault.Misdirected) (h : World.handle now event ⟨w, q⟩ = .error fault g) :
    ∃ entry, TraceEntry.ofEvent? now event = some entry ∧
      g = ⟨{ w with trace := w.trace.push entry }, q⟩ := by
  unfold handle at h
  cases hentry : TraceEntry.ofEvent? now event with
  | none =>
    rw [hentry] at h
    cases h
  | some entry =>
    rw [hentry] at h
    refine ⟨entry, rfl, ?_⟩
    unfold deliver at h
    dsimp only at h
    cases hreact : Change.react w.settings w.broker now entry.receiver entry.message w.registry with
    | error cause registry =>
      rw [hreact] at h
      cases h
      rw [Change.react_of_misdirected hr hreact]
    | ok outgoing registry =>
      -- whatever goes wrong after the reaction is a fault of another kind
      rw [hreact] at h
      dsimp only at h
      split at h
      · cases h
        cases hfault
      · split at h
        · cases h
          cases hfault
        · cases h

/-- A refused message has no effect. -/
theorem Reachable.refused {g : Regime} {s : Session World Payload} {now : Time}
    {event : Event Payload} {q : EventQueue Payload} {fault : Fault} {left : Stage World Payload}
    (hs : Reachable g s) (hfault : fault.Misdirected)
    (h : World.handle now event ⟨s.state, q⟩ = .error fault left) :
    ∃ entry, TraceEntry.ofEvent? now event = some entry ∧
      left = ⟨{ s.state with trace := s.state.trace.push entry }, q⟩ ∧
      World.handle now { event with payload := .noop } ⟨s.state, q⟩ = .ok () ⟨s.state, q⟩ ∧
      ∀ clock processed, Session.Mirrors (World.interject s.state.trace.size entry)
        ⟨⟨q, clock, processed⟩, s.state⟩ ⟨⟨left.queue, clock, processed⟩, left.state⟩ := by
  obtain ⟨entry, hentry, rfl⟩ := World.handle_of_misdirected hs.orderly hfault h
  exact ⟨entry, hentry, rfl, rfl, fun clock processed => .of_interject _ _ _⟩

namespace Crossing

/-- While the walker is handed over, the west is told to let the east go, which is no node. -/
def mistaken : Session World Payload :=
  { handover with
    simulation := handover.simulation.schedule 12 (.deliver walker west (.leavePuddle east)) }

theorem fault?_mistaken : mistaken.fault? = some (.kindMismatch east .fogNode .puddleHead) := by
  decide +kernel

end Crossing

/-- The west strikes the east off before it looks it up, and nothing has happened. -/
theorem Reachable.refused_mistaken : ∃ e rest left entry,
    Crossing.mistaken.simulation.queue.pop? = some (e, rest) ∧
    World.handle e.time e ⟨Crossing.mistaken.state, rest⟩ =
      .error (.kindMismatch Crossing.east .fogNode .puddleHead) left ∧
    left = ⟨{ Crossing.mistaken.state with trace := Crossing.mistaken.state.trace.push entry },
      rest⟩ := by
  have hs : Reachable .unrestricted Crossing.mistaken := Crossing.reachable_handover.posted trivial
  obtain ⟨s', hstep⟩ := Session.step_of_fault? Crossing.fault?_mistaken
  obtain ⟨e, rest, left, hpop, hhandle, -⟩ := Session.handle_of_step_error hstep
  obtain ⟨entry, -, hleft, -⟩ := Reachable.refused hs (.mistaken _ _ _) hhandle
  exact ⟨e, rest, left, entry, hpop, hhandle, hleft⟩

end FogNet
