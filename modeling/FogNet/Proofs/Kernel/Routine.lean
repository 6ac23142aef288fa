import FogNet.Proofs.Kernel.Loop

/-!
# Handlers by their calls

The queue is open to a handler only through the calls of its context: to post an event at an instant
or after a delay, and to ask how many events wait. A `Routine` is what a handler does with one
event, call by call, each answer deciding what comes next; it ends well or with a fault, and either
way with a state. A `Conduct` has a routine for every instant, event and state, and is any handler
that uses these calls and no others (`Conduct.handler`).

A handler that keeps more than another one and treats the queue in the same way makes the same runs
(`Session.map_runUntil`).
-/

namespace FogNet

variable {σ τ π ε : Type}

/-- What a handler does with one event, call by call. -/
inductive Routine (σ π ε : Type) : Type where
  /-- End well. -/
  | finish (state : σ)
  /-- End with a fault; what has been done stays done. -/
  | fail (cause : ε) (state : σ)
  /-- Post an event at an instant, and go on with the answer. -/
  | postAt (due : Time) (payload : π) (next : Except ScheduleError EventId → Routine σ π ε)
  /-- Post an event some ticks from now, and go on with the answer. -/
  | postAfter (delay : Nat) (payload : π) (next : Except ScheduleError EventId → Routine σ π ε)
  /-- Ask how many events wait. -/
  | count (next : Nat → Routine σ π ε)

/-- Carry out a routine. -/
def Routine.perform (now : Time) :
    Routine σ π ε → EventQueue π → EStateM.Result ε (Stage σ π) Unit
  | .finish state, q => .ok () ⟨state, q⟩
  | .fail cause state, q => .error cause ⟨state, q⟩
  | .postAt due payload next, q =>
    match q.postAt now due payload with
    | .error cause => (next (.error cause)).perform now q
    | .ok (id, q) => (next (.ok id)).perform now q
  | .postAfter delay payload next, q =>
    match q.postAfter now delay payload with
    | .error cause => (next (.error cause)).perform now q
    | .ok (id, q) => (next (.ok id)).perform now q
  | .count next, q => (next q.size).perform now q

/-- A routine for every instant, event and state. -/
abbrev Conduct (σ π ε : Type) := Time → Event π → σ → Routine σ π ε

/-- The handler that carries out the routines. -/
def Conduct.handler (c : Conduct σ π ε) : Handler σ π ε := fun now e g =>
  (c now e g.state).perform now g.queue

/-! ## Handlers that keep more -/

/-- A result with its state changed. -/
def resultMap {α : Type} (f : σ → τ) : EStateM.Result ε σ α → EStateM.Result ε τ α
  | .ok a s => .ok a (f s)
  | .error cause s => .error cause (f s)

@[simp] theorem stateOf_resultMap {α : Type} (f : σ → τ) (result : EStateM.Result ε σ α) :
    stateOf (resultMap f result) = f (stateOf result) := by
  cases result <;> rfl

theorem resultMap_resultMap {υ α : Type} (g : τ → υ) (f : σ → τ) (result : EStateM.Result ε σ α) :
    resultMap g (resultMap f result) = resultMap (g ∘ f) result := by
  cases result <;> rfl

/-- A stage with the state of the handler changed. -/
def Stage.map (f : σ → τ) (g : Stage σ π) : Stage τ π := ⟨f g.state, g.queue⟩

namespace Session

/-- A session with the state of the handler changed. -/
def map (f : σ → τ) (s : Session σ π) : Session τ π := ⟨s.simulation, f s.state⟩

section

variable {f : σ → τ} {handle : Handler σ π ε} {handle' : Handler τ π ε}
  (h : ∀ now e g, resultMap (Stage.map f) (handle now e g) = handle' now e (g.map f))

include h

theorem map_step (s : Session σ π) :
    resultMap (map f) (s.step handle) = (s.map f).step handle' := by
  unfold step map
  cases hpop : s.simulation.queue.pop? with
  | none => rfl
  | some next =>
    obtain ⟨e, rest⟩ := next
    have hhandle := h e.time e ⟨s.state, rest⟩
    simp only [Stage.map] at hhandle
    dsimp only
    rw [← hhandle]
    cases handle e.time e ⟨s.state, rest⟩ <;> rfl

theorem map_runFor (max : Nat) (s : Session σ π) :
    resultMap (map f) (s.runFor handle max) = (s.map f).runFor handle' max := by
  induction max generalizing s with
  | zero => rfl
  | succ max ih =>
    have hstep := map_step h s
    unfold runFor
    cases hq : s.step handle with
    | error cause q =>
      rw [hq] at hstep
      rw [← hstep]
      rfl
    | ok e q =>
      rw [hq] at hstep
      rw [← hstep]
      cases e with
      | none => rfl
      | some e => exact ih q

theorem map_runWhile (accept : Event π → Bool) (budget : Nat) (s : Session σ π) :
    (s.runWhile handle accept budget).map (resultMap (map f)) =
      (s.map f).runWhile handle' accept budget := by
  induction budget generalizing s with
  | zero => rfl
  | succ budget ih =>
    have hstep := map_step h s
    have hqueue : (s.map f).simulation.queue = s.simulation.queue := rfl
    unfold runWhile
    rw [hqueue]
    cases hpeek : s.simulation.queue.peek? with
    | none => rfl
    | some next =>
      dsimp only
      split_ifs
      · cases hq : s.step handle with
        | error cause q =>
          rw [hq] at hstep
          rw [← hstep]
          rfl
        | ok e q =>
          rw [hq] at hstep
          rw [← hstep]
          exact ih q
      · rfl

theorem map_runUntil (horizon : Time) (budget : Nat) (s : Session σ π) :
    (s.runUntil handle horizon budget).map (resultMap (map f)) =
      (s.map f).runUntil handle' horizon budget := by
  rw [runUntil_eq, runUntil_eq, ← map_runWhile h, Option.map_map, Option.map_map]
  congr 1
  funext result
  cases result <;> rfl

end

end Session

end FogNet
