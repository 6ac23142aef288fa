import FogNet.Kernel.EventQueue

/-!
# The simulation loop

A simulation takes the next event, moves its clock there and hands the event to a handler, which
changes its own state and may post further events. A handler that fails ends the run, and what it
did before stays done. Timers may post events for ever, so the loops that follow the queue take a
budget of events; `none` says that the budget ran out.
-/

namespace FogNet

/-- What a handler works on: its own state and the queue. -/
structure Stage (σ π : Type) where
  /-- The handler's own state. -/
  state : σ
  /-- The queue it may post to. -/
  queue : EventQueue π

/-- The reaction to an event, given the current instant. -/
abbrev Handler (σ π ε : Type) := Time → Event π → EStateM ε (Stage σ π) Unit

/-- The state of the loop. -/
structure Simulation (π : Type) where
  /-- The events still to come. -/
  queue : EventQueue π
  /-- The current instant. -/
  clock : Time
  /-- How many events have been handed out. -/
  processed : Nat

/-- A simulation together with the state of its handler. -/
structure Session (σ π : Type) where
  /-- The loop. -/
  simulation : Simulation π
  /-- The handler's state. -/
  state : σ

namespace Simulation

/-- A simulation at instant zero without events. -/
def start {π : Type} : Simulation π := ⟨.empty, 0, 0⟩

/-- Post an event from outside the loop. -/
def schedule {π : Type} (s : Simulation π) (due : Time) (payload : π) : Simulation π :=
  { s with queue := s.queue.post due payload }

/-- Whether no event is left. -/
def isFinished {π : Type} (s : Simulation π) : Bool := s.queue.isEmpty

end Simulation

namespace Session

variable {σ π ε : Type}

/-- The session once a handler has worked on an event of the given instant. -/
def afterEvent (s : Session σ π) (time : Time) (g : Stage σ π) : Session σ π :=
  ⟨⟨g.queue, time, s.simulation.processed + 1⟩, g.state⟩

/-- Hand out the next event, if there is one. -/
def step (handle : Handler σ π ε) (s : Session σ π) :
    EStateM.Result ε (Session σ π) (Option (Event π)) :=
  match s.simulation.queue.pop? with
  | none => .ok none s
  | some (event, rest) =>
    match handle event.time event ⟨s.state, rest⟩ with
    | .ok _ g => .ok (some event) (s.afterEvent event.time g)
    | .error e g => .error e (s.afterEvent event.time g)

/-- Hand out up to `max` events. -/
def runFor (handle : Handler σ π ε) : Nat → Session σ π → EStateM.Result ε (Session σ π) Unit
  | 0, s => .ok () s
  | max + 1, s =>
    match s.step handle with
    | .ok none s => .ok () s
    | .ok (some _) s => runFor handle max s
    | .error e s => .error e s

/-- Hand out events as long as the next one passes a test. -/
def runWhile (handle : Handler σ π ε) (accept : Event π → Bool) :
    Nat → Session σ π → Option (EStateM.Result ε (Session σ π) Unit)
  | 0, _ => none
  | budget + 1, s =>
    match s.simulation.queue.peek? with
    | none => some (.ok () s)
    | some next =>
      if accept next then
        match s.step handle with
        | .ok _ s => runWhile handle accept budget s
        | .error e s => some (.error e s)
      else some (.ok () s)

/-- Hand out events until none is left. -/
def run (handle : Handler σ π ε) (budget : Nat) (s : Session σ π) :
    Option (EStateM.Result ε (Session σ π) Unit) :=
  s.runWhile handle (fun _ => true) budget

/-- Move the clock forward to an instant; a clock past it stays. -/
def raiseClock (s : Session σ π) (time : Time) : Session σ π :=
  { s with simulation := { s.simulation with clock := max s.simulation.clock time } }

/-- Hand out all events due by `horizon` and leave the clock there; later events stay queued. -/
def runUntil (handle : Handler σ π ε) (horizon : Time) (budget : Nat) (s : Session σ π) :
    Option (EStateM.Result ε (Session σ π) Unit) :=
  match s.runWhile handle (fun next => decide (next.time ≤ horizon)) budget with
  | some (.ok _ s) => some (.ok () (s.raiseClock horizon))
  | other => other

/-- The number of events handed out since an earlier state of the session. -/
def handedOutSince (s earlier : Session σ π) : Nat :=
  s.simulation.processed - earlier.simulation.processed

end Session

end FogNet
