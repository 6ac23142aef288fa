import FogNet.Kernel.Simulation
import Mathlib.Tactic.SplitIfs

/-!
# The loops of a session

Facts about the loops for any handler. A loop ends where successful steps lead, or at a step from
there that fails (`Session.Ends`), so what every step keeps the loops keep (`Session.kept_runFor`,
`Session.kept_runWhile`). A loop with a test can be taken apart at the first event that a stricter
test refuses (`Session.Stops.resume`). A run up to an instant `Finishes` if some budget suffices for
it. A step sets the clock to the instant of its event and does not read it, so the clock matters
only when no event is handed out (`Session.step_raiseClock`, `Session.runUntil_raiseClock`).
-/

namespace FogNet

/-- What a step leaves behind, whether it fails or not. -/
def stateOf {ε σ α : Type} : EStateM.Result ε σ α → σ
  | .ok _ s => s
  | .error _ s => s

namespace EventQueue

variable {π : Type} {q : EventQueue π} {e : Event π}

theorem pop?_of_peek?_none (h : q.peek? = none) : q.pop? = none :=
  pop?_eq_none_iff.2 (List.head?_eq_none_iff.1 h)

theorem exists_pop?_of_peek? (h : q.peek? = some e) : ∃ rest, q.pop? = some (e, rest) := by
  unfold peek? at h
  cases hpop : q.pop? with
  | none =>
    rw [pop?_eq_none_iff.1 hpop] at h
    cases h
  | some next =>
    obtain ⟨d, rest⟩ := next
    rw [(pop?_eq_some_iff.1 hpop).1] at h
    obtain rfl := Option.some.inj h
    exact ⟨rest, rfl⟩

/-- All events wait for a later instant if the first one does. -/
theorem forall_later {time : Time} (h : ∀ e, q.peek? = some e → time < e.time) :
    ∀ e ∈ q.pending, time < e.time := by
  unfold peek? at h
  intro e he
  cases hq : q.pending with
  | nil =>
    rw [hq] at he
    cases he
  | cons d rest =>
    have hd := h d (by rw [hq]; rfl)
    have hordered := q.ordered
    rw [hq] at he hordered
    rcases List.mem_cons.1 he with rfl | he
    · exact hd
    · have hprecedes := (List.pairwise_cons.1 hordered).1 e he
      unfold Event.Precedes at hprecedes
      lia

end EventQueue

namespace Session

variable {σ π ε : Type} {handle : Handler σ π ε} {s s' q : Session σ π}

/-! ## Steps -/

theorem step_of_peek?_none (h : s.simulation.queue.peek? = none) : s.step handle = .ok none s := by
  unfold step
  rw [EventQueue.pop?_of_peek?_none h]

/-- A step that hands out nothing leaves the session as it is. -/
theorem eq_of_step_none (h : s.step handle = .ok none s') : s' = s := by
  unfold step at h
  split at h
  · cases h
    rfl
  · split at h <;> cases h

/-- A step from a session in which an event waits moves the clock to its instant, and counts it. -/
theorem stateOf_step_of_peek? (handle : Handler σ π ε) {next : Event π}
    (hpeek : s.simulation.queue.peek? = some next) :
    (stateOf (s.step handle)).simulation.clock = next.time ∧
      (stateOf (s.step handle)).simulation.processed = s.simulation.processed + 1 := by
  obtain ⟨rest, hpop⟩ := EventQueue.exists_pop?_of_peek? hpeek
  unfold step
  rw [hpop]
  dsimp only
  split <;> exact ⟨rfl, rfl⟩

/-- A step from a session in which an event waits hands it out, and the clock shows its instant. -/
theorem step_of_peek? {next : Event π} {e : Option (Event π)}
    (hpeek : s.simulation.queue.peek? = some next) (h : s.step handle = .ok e s') :
    e = some next ∧ s'.simulation.clock = next.time ∧
      s'.simulation.processed = s.simulation.processed + 1 := by
  have hstate := stateOf_step_of_peek? handle hpeek
  rw [h] at hstate
  refine ⟨?_, hstate⟩
  obtain ⟨rest, hpop⟩ := EventQueue.exists_pop?_of_peek? hpeek
  unfold step at h
  simp only [hpop] at h
  split at h
  · cases h
    rfl
  · cases h

/-- A step that fails has handed out an event on which the handler fails. -/
theorem handle_of_step_error {cause : ε} (h : s.step handle = .error cause s') :
    ∃ e rest g, s.simulation.queue.pop? = some (e, rest) ∧
      handle e.time e ⟨s.state, rest⟩ = .error cause g ∧ s' = s.afterEvent e.time g := by
  unfold step at h
  cases hpop : s.simulation.queue.pop? with
  | none =>
    rw [hpop] at h
    cases h
  | some next =>
    obtain ⟨e, rest⟩ := next
    rw [hpop] at h
    dsimp only at h
    cases hhandle : handle e.time e ⟨s.state, rest⟩ with
    | ok u g =>
      rw [hhandle] at h
      cases h
    | error fault g =>
      rw [hhandle] at h
      cases h
      exact ⟨e, rest, g, rfl, hhandle, rfl⟩

theorem processed_le_step (s : Session σ π) :
    s.simulation.processed ≤ (stateOf (s.step handle)).simulation.processed := by
  cases hpeek : s.simulation.queue.peek? with
  | none =>
    rw [step_of_peek?_none hpeek]
    exact Nat.le_refl _
  | some next =>
    rw [(stateOf_step_of_peek? handle hpeek).2]
    exact Nat.le_succ _

/-- The clock is not seen by the handler, and a step sets it: if an event waits, moving the clock
first changes nothing. -/
theorem step_raiseClock {next : Event π} (time : Time)
    (hpeek : s.simulation.queue.peek? = some next) :
    (s.raiseClock time).step handle = s.step handle := by
  obtain ⟨rest, hpop⟩ := EventQueue.exists_pop?_of_peek? hpeek
  unfold step raiseClock
  simp only [hpop]
  rfl

/-! ## What the loops keep -/

section Ends

variable {P : Session σ π → Prop} {accept : Event π → Bool} {budget : Nat}
  {result : EStateM.Result ε (Session σ π) Unit}

/-- A loop ends in a session of some kind, or at a step from one that fails. -/
def Ends (handle : Handler σ π ε) (P : Session σ π → Prop) :
    EStateM.Result ε (Session σ π) Unit → Prop
  | .ok _ s => P s
  | .error cause s => ∃ q, P q ∧ q.step handle = .error cause s

theorem ends_runFor (hstep : ∀ q e q', P q → q.step handle = .ok e q' → P q') (hs : P s)
    (max : Nat) : Ends handle P (s.runFor handle max) := by
  induction max generalizing s with
  | zero => exact hs
  | succ max ih =>
    unfold runFor
    cases h : s.step handle with
    | error cause q => exact ⟨s, hs, h⟩
    | ok e q =>
      have hq := hstep s e q hs h
      cases e with
      | none => exact hq
      | some e => exact ih hq

theorem ends_runWhile (hstep : ∀ q e q', P q → q.step handle = .ok e q' → P q') (hs : P s)
    (h : s.runWhile handle accept budget = some result) : Ends handle P result := by
  induction budget generalizing s with
  | zero => cases h
  | succ budget ih =>
    unfold runWhile at h
    split at h
    · cases h
      exact hs
    · split_ifs at h
      · cases hq : s.step handle with
        | error cause q =>
          rw [hq] at h
          cases h
          exact ⟨s, hs, hq⟩
        | ok e q =>
          rw [hq] at h
          exact ih (hstep s e q hs hq) h
      · cases h
        exact hs

/-- What a failing step keeps as well holds at the end, whether it is a good one or not. -/
theorem Ends.kept (hstep : ∀ q, P q → P (stateOf (q.step handle))) (h : Ends handle P result) :
    P (stateOf result) := by
  cases result with
  | ok u s => exact h
  | error cause s =>
    obtain ⟨q, hq, hfail⟩ := h
    have hnext := hstep q hq
    rwa [hfail] at hnext

theorem kept_of_step_ok (hstep : ∀ q, P q → P (stateOf (q.step handle))) (q : Session σ π)
    (e : Option (Event π)) (q' : Session σ π) (hq : P q) (h : q.step handle = .ok e q') : P q' := by
  have hnext := hstep q hq
  rwa [h] at hnext

theorem kept_runFor (hstep : ∀ q, P q → P (stateOf (q.step handle))) (hs : P s) (max : Nat) :
    P (stateOf (s.runFor handle max)) :=
  (ends_runFor (kept_of_step_ok hstep) hs max).kept hstep

theorem kept_runWhile (hstep : ∀ q, P q → P (stateOf (q.step handle))) (hs : P s)
    (h : s.runWhile handle accept budget = some result) : P (stateOf result) :=
  (ends_runWhile (kept_of_step_ok hstep) hs h).kept hstep

end Ends

/-- A loop with a test that ends well ends where no event is left that passes it. -/
theorem refuses_of_runWhile {accept : Event π → Bool} {budget : Nat} {u : Unit}
    (h : s.runWhile handle accept budget = some (.ok u s')) :
    ∀ e, s'.simulation.queue.peek? = some e → accept e = false := by
  induction budget generalizing s with
  | zero => cases h
  | succ budget ih =>
    unfold runWhile at h
    split at h
    · rename_i hpeek
      cases h
      intro e he
      rw [hpeek] at he
      cases he
    · rename_i next hpeek
      split_ifs at h with haccept
      · cases hq : s.step handle with
        | error cause q =>
          rw [hq] at h
          cases h
        | ok e q =>
          rw [hq] at h
          exact ih h
      · cases h
        intro e he
        rw [hpeek] at he
        cases he
        exact Bool.eq_false_iff.2 haccept

theorem later_of_runWhile {horizon : Time} {budget : Nat} {u : Unit}
    (h : s.runWhile handle (fun next => decide (next.time ≤ horizon)) budget = some (.ok u s')) :
    ∀ e ∈ s'.simulation.queue.pending, horizon < e.time :=
  EventQueue.forall_later fun e he => by
    have hrefused := refuses_of_runWhile h e he
    rwa [decide_eq_false_iff_not, Nat.not_le] at hrefused

/-! ## Loops that come to an end -/

section Stops

variable {accept : Event π → Bool} {budget : Nat} {result : EStateM.Result ε (Session σ π) Unit}

/-- If every event that passes the test lowers a measure, the loop hands out no more events than the
measure says, and that is a budget that suffices. -/
theorem exists_runWhile_of_measure {P : Session σ π → Prop} (measure : Session σ π → Nat)
    (hstep : ∀ q next, P q → q.simulation.queue.peek? = some next → accept next = true →
      P (stateOf (q.step handle)) ∧ measure (stateOf (q.step handle)) < measure q)
    (hs : P s) (hbudget : measure s < budget) :
    ∃ result, s.runWhile handle accept budget = some result ∧
      (stateOf result).simulation.processed ≤ s.simulation.processed + measure s := by
  induction budget generalizing s with
  | zero => exact absurd hbudget (Nat.not_lt_zero _)
  | succ budget ih =>
    unfold runWhile
    cases hpeek : s.simulation.queue.peek? with
    | none => exact ⟨_, rfl, Nat.le_add_right _ _⟩
    | some next =>
      dsimp only
      split_ifs with haccept
      · obtain ⟨hkept, hlower⟩ := hstep s next hs hpeek haccept
        have hcount := (stateOf_step_of_peek? handle hpeek).2
        cases hq : s.step handle with
        | error cause q =>
          rw [hq] at hlower hcount
          have hcount : q.simulation.processed = s.simulation.processed + 1 := hcount
          refine ⟨_, rfl, ?_⟩
          show q.simulation.processed ≤ s.simulation.processed + measure s
          rw [hcount]
          exact Nat.add_le_add_left (Nat.one_le_of_lt hlower) _
        | ok e q =>
          rw [hq] at hkept hlower hcount
          have hcount : q.simulation.processed = s.simulation.processed + 1 := hcount
          have hlower : measure q < measure s := hlower
          obtain ⟨result, hrun, hle⟩ := ih hkept (by lia)
          exact ⟨result, hrun, by lia⟩
      · exact ⟨_, rfl, Nat.le_add_right _ _⟩

/-- A loop with a test comes to an end, with a result. -/
def Stops (handle : Handler σ π ε) (accept : Event π → Bool) (s : Session σ π)
    (result : EStateM.Result ε (Session σ π) Unit) : Prop :=
  ∃ budget, s.runWhile handle accept budget = some result

theorem stops_of_step_ok {next : Event π} {e : Option (Event π)}
    (hpeek : s.simulation.queue.peek? = some next) (haccept : accept next = true)
    (hstep : s.step handle = .ok e q) :
    s.Stops handle accept result ↔ q.Stops handle accept result := by
  constructor
  · rintro ⟨budget, h⟩
    cases budget with
    | zero => cases h
    | succ budget =>
      simp only [runWhile, hpeek, haccept, if_true, hstep] at h
      exact ⟨budget, h⟩
  · rintro ⟨budget, h⟩
    exact ⟨budget + 1, by simpa only [runWhile, hpeek, haccept, if_true, hstep] using h⟩

/-- A loop that has stopped by itself at a stricter test goes on as if it had never stopped. -/
theorem Stops.resume {strict : Event π → Bool} {u : Unit}
    (hstrict : ∀ e, strict e = true → accept e = true) (h : s.Stops handle strict (.ok u s')) :
    s'.Stops handle accept result ↔ s.Stops handle accept result := by
  obtain ⟨budget, h⟩ := h
  induction budget generalizing s with
  | zero => cases h
  | succ budget ih =>
    unfold runWhile at h
    split at h
    · cases h
      exact Iff.rfl
    · rename_i next hpeek
      split_ifs at h with hpasses
      · cases hq : s.step handle with
        | error cause q =>
          rw [hq] at h
          cases h
        | ok e q =>
          rw [hq] at h
          rw [ih h, stops_of_step_ok hpeek (hstrict next hpasses) hq]
      · cases h
        exact Iff.rfl

end Stops

/-! ## Runs up to an instant -/

section Finishes

variable {horizon a b : Time} {budget : Nat} {result : EStateM.Result ε (Session σ π) Unit}

/-- The end of a run up to an instant: if it is a good one, the clock is moved there. -/
def settle (horizon : Time) :
    EStateM.Result ε (Session σ π) Unit → EStateM.Result ε (Session σ π) Unit
  | .ok _ s => .ok () (s.raiseClock horizon)
  | .error cause s => .error cause s

theorem runUntil_eq (handle : Handler σ π ε) (horizon : Time) (budget : Nat) (s : Session σ π) :
    s.runUntil handle horizon budget =
      (s.runWhile handle (fun next => decide (next.time ≤ horizon)) budget).map
        (settle horizon) := by
  unfold runUntil
  split
  · rename_i h
    rw [h]
    rfl
  · rename_i h
    cases hrun : s.runWhile handle (fun next => decide (next.time ≤ horizon)) budget with
    | none => rfl
    | some result =>
      cases result with
      | ok u q => exact absurd hrun (h u q)
      | error cause q => rfl

/-- A run up to an instant comes to an end, with a result. -/
def Finishes (handle : Handler σ π ε) (horizon : Time) (s : Session σ π)
    (result : EStateM.Result ε (Session σ π) Unit) : Prop :=
  ∃ budget, s.runUntil handle horizon budget = some result

theorem finishes_iff : s.Finishes handle horizon result ↔
    ∃ stopped, s.Stops handle (fun next => decide (next.time ≤ horizon)) stopped ∧
      settle horizon stopped = result := by
  simp only [Finishes, Stops, runUntil_eq, Option.map_eq_some_iff]
  constructor
  · rintro ⟨budget, stopped, h, hsettle⟩
    exact ⟨stopped, ⟨budget, h⟩, hsettle⟩
  · rintro ⟨stopped, ⟨budget, h⟩, hsettle⟩
    exact ⟨budget, stopped, h, hsettle⟩

theorem raiseClock_raiseClock (s : Session σ π) (hab : a ≤ b) :
    (s.raiseClock a).raiseClock b = s.raiseClock b := by
  unfold raiseClock
  dsimp only
  rw [Nat.max_assoc, Nat.max_eq_right hab]

/-- To move the clock to an instant before a run to a later one changes nothing. -/
theorem runUntil_raiseClock (hab : a ≤ b) :
    (s.raiseClock a).runUntil handle b budget = s.runUntil handle b budget := by
  cases budget with
  | zero => rfl
  | succ budget =>
    unfold runUntil runWhile
    have hqueue : (s.raiseClock a).simulation.queue = s.simulation.queue := rfl
    rw [hqueue]
    cases hpeek : s.simulation.queue.peek? with
    | none =>
      dsimp only
      rw [raiseClock_raiseClock s hab]
    | some next =>
      dsimp only
      split_ifs
      · rw [step_raiseClock a hpeek]
      · dsimp only
        rw [raiseClock_raiseClock s hab]

/-- A run that has come to a good end leaves later events only. -/
theorem Finishes.later {u : Unit} (h : s.Finishes handle horizon (.ok u s')) :
    ∀ e ∈ s'.simulation.queue.pending, horizon < e.time := by
  obtain ⟨stopped, ⟨budget, hrun⟩, hsettle⟩ := finishes_iff.1 h
  cases stopped with
  | error cause q => cases hsettle
  | ok u q =>
    cases hsettle
    show ∀ e ∈ q.simulation.queue.pending, horizon < e.time
    exact later_of_runWhile hrun

theorem Finishes.processed_le (h : s.Finishes handle horizon result) :
    s.simulation.processed ≤ (stateOf result).simulation.processed := by
  obtain ⟨stopped, ⟨budget, hrun⟩, rfl⟩ := finishes_iff.1 h
  have hle := kept_runWhile (P := fun q => s.simulation.processed ≤ q.simulation.processed)
    (fun q hq => Nat.le_trans hq (processed_le_step q)) (Nat.le_refl _) hrun
  cases stopped <;> exact hle

end Finishes

end Session

end FogNet
