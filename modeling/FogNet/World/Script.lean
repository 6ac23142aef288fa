import FogNet.Fault
import FogNet.Kernel.Simulation
import FogNet.Membership.Message

/-!
# Scripted handlers

A script drives the simulation loop without a network: it says for each mark which events to post,
or where to fail. An event is marked by the receiver of its message; an event without a message has
no mark. The handler keeps a record of every event it was handed.
-/

namespace FogNet

/-- What tells scripted events apart. -/
abbrev Mark := Option EntityId

/-- The mark of a payload. -/
def Payload.mark : Payload → Mark
  | noop => none
  | deliver _ receiver _ => some receiver

/-- A payload with a mark. -/
def Payload.ofMark : Mark → Payload
  | none => noop
  | some receiver => deliver 0 receiver .updateLocation

/-- One thing a script has done when an event comes. -/
inductive ScriptAction where
  /-- Post an event some ticks later. -/
  | after (delay : Nat) (mark : Mark)
  /-- Post an event at an instant. -/
  | atInstant (due : Time) (mark : Mark)
  /-- Fail with a text. -/
  | fail (text : String)

/-- The record of an event handed to a script. -/
structure ScriptRecord where
  /-- The instant. -/
  now : Time
  /-- The number of the event. -/
  event : EventId
  /-- The mark of the event. -/
  mark : Mark
  /-- The numbers of the events posted in answer. -/
  posted : List EventId
  /-- How many events waited afterwards. -/
  waiting : Nat

/-- What to do for each mark. -/
structure Script where
  /-- The actions for each mark; a mark without an entry does nothing. -/
  rules : List (Mark × List ScriptAction)

namespace Script

/-- The actions for a mark. -/
def actionsFor (s : Script) (mark : Mark) : List ScriptAction :=
  (s.rules.lookup mark).getD []

/-- Do one thing: the number of the event posted and the queue, or the reason of the failure. -/
def act (now : Time) (q : EventQueue Payload) :
    ScriptAction → Except Fault (EventId × EventQueue Payload)
  | .after delay mark => (q.postAfter now delay (.ofMark mark)).mapError .schedule
  | .atInstant due mark => (q.postAt now due (.ofMark mark)).mapError .schedule
  | .fail text => .error (.topology (.stated text))

/-- Do things in order up to the first failure; the numbers of the events posted are collected. -/
def perform (now : Time) :
    List ScriptAction → EventQueue Payload → Except Fault Unit × List EventId × EventQueue Payload
  | [], q => (.ok (), [], q)
  | a :: rest, q =>
    match act now q a with
    | .error fault => (.error fault, [], q)
    | .ok (id, q) =>
      let (result, ids, q) := perform now rest q
      (result, id :: ids, q)

/-- The handler that follows a script and keeps records. -/
def handle (s : Script) : Handler (Array ScriptRecord) Payload Fault := fun now event g =>
  let mark := event.payload.mark
  let (result, ids, queue) := perform now (s.actionsFor mark) g.queue
  let after : Stage (Array ScriptRecord) Payload :=
    ⟨g.state.push ⟨now, event.id, mark, ids, queue.size⟩, queue⟩
  match result with
  | .ok _ => .ok () after
  | .error fault => .error fault after

end Script

end FogNet
