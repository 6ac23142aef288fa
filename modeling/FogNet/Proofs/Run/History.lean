import FogNet.Proofs.Run.Reachable

/-!
# Histories

A `History` is a run together with the sessions from which it has handed out an event, the latest
first. Histories end in the reachable sessions and in no others (`History.reachable`,
`Reachable.history`), and a loop that ends well adds the sessions it has passed through
(`History.runUntil`).
-/

namespace FogNet

namespace Session

/-- The next event is due at an instant and delivers a message to a receiver. -/
def Hands (s : Session World Payload) (time : Time) (receiver : EntityId) (msg : Message) : Prop :=
  ∃ sender rest, s.entries = (time, .deliver sender receiver msg) :: rest

/-- The sessions from which the next events, at most `max`, are handed out, the latest first. -/
def trail {σ π ε : Type} (handle : Handler σ π ε) : Nat → Session σ π → List (Session σ π)
  | 0, _ => []
  | max + 1, s =>
    match s.step handle with
    | .ok none _ => []
    | .ok (some _) q => trail handle max q ++ [s]
    | .error _ _ => [s]

end Session

/-- The runs of a regime: the sessions from which an event has been handed out, the latest first,
and the session that has been reached. -/
inductive History (g : Regime) : List (Session World Payload) → Session World Payload → Prop where
  /-- A network is finished. -/
  | built {b : Builder} {s : Session World Payload} (hb : b.Made (g.admits 0))
      (h : b.build = .ok s) : History g [] s
  /-- An event is handed out. -/
  | stepped {past : List (Session World Payload)} {s s' : Session World Payload}
      {e : Event Payload} (hs : History g past s) (h : s.step World.handle = .ok (some e) s') :
      History g (s :: past) s'
  /-- Handing out an event fails, and the run goes on. -/
  | failed {past : List (Session World Payload)} {s s' : Session World Payload} {fault : Fault}
      (hs : History g past s) (h : s.step World.handle = .error fault s')
      (hf : g.survives fault) : History g (s :: past) s'
  /-- An event is posted from outside. -/
  | posted {past : List (Session World Payload)} {s : Session World Payload} {due : Time}
      {p : Payload} (hs : History g past s) (h : g.admits s.simulation.clock due p) :
      History g past { s with simulation := s.simulation.schedule due p }
  /-- Time goes by up to an instant before the next event. -/
  | waited {past : List (Session World Payload)} {s : Session World Payload} {time : Time}
      (hs : History g past s) (h : ∀ e ∈ s.simulation.queue.pending, time < e.time) :
      History g past (s.raiseClock time)
  /-- The network is changed from outside. -/
  | intervened {past : List (Session World Payload)} {s : Session World Payload} {w : World}
      (hs : History g past s) (h : s.state.Intervention w) : History g past { s with state := w }

variable {g : Regime} {past : List (Session World Payload)} {s s' q : Session World Payload}

theorem History.reachable (hs : History g past s) : Reachable g s := by
  induction hs with
  | built hb h => exact .built hb h
  | stepped _ h ih => exact ih.stepped h
  | failed _ h hf ih => exact ih.failed h hf
  | posted _ h ih => exact ih.posted h
  | waited _ h ih => exact ih.waited h
  | intervened _ h ih => exact ih.intervened h

/-- A session of a history has a history of its own, which is the end of the whole one. -/
theorem History.exists_of_mem (hs : History g past s) (hq : q ∈ past) :
    ∃ before, History g before q ∧ q :: before <:+ past := by
  induction hs with
  | built _ _ => cases hq
  | stepped hs _ ih | failed hs _ _ ih =>
    rcases List.mem_cons.1 hq with rfl | hq
    · exact ⟨_, hs, List.suffix_refl _⟩
    · obtain ⟨before, hbefore, hsuffix⟩ := ih hq
      exact ⟨before, hbefore, hsuffix.trans (List.suffix_cons _ _)⟩
  | posted _ _ ih | waited _ _ ih | intervened _ _ ih => exact ih hq

/-- Every session of a history was reachable. -/
theorem History.reachable_of_mem (hs : History g past s) (hq : q ∈ past) : Reachable g q :=
  (hs.exists_of_mem hq).elim fun _ h => h.1.reachable

/-- Whether the next step hands out an event and succeeds. -/
def Session.proceeds (s : Session World Payload) : Bool :=
  match s.step World.handle with
  | .ok (some _) _ => true
  | _ => false

theorem History.next (hs : History g past s) (h : s.proceeds = true) :
    History g (s :: past) (stateOf (s.step World.handle)) := by
  unfold Session.proceeds at h
  split at h
  · rename_i e s' hstep
    rw [hstep]
    exact hs.stepped hstep
  · cases h

/-- The fault with which the next step fails, if it does. -/
def Session.fault? (s : Session World Payload) : Option Fault :=
  match s.step World.handle with
  | .error fault _ => some fault
  | .ok _ _ => none

theorem Session.step_of_fault? {fault : Fault} (h : s.fault? = some fault) :
    ∃ q, s.step World.handle = .error fault q := by
  unfold Session.fault? at h
  split at h
  · rename_i q hstep
    exact ⟨q, hstep.trans (congrArg (EStateM.Result.error · q) (Option.some.inj h))⟩
  · cases h

namespace Session

theorem hands_of_head? {sender receiver : EntityId} {time : Time} {msg : Message}
    (h : s.entries.head? = some (time, .deliver sender receiver msg)) :
    s.Hands time receiver msg := by
  obtain ⟨rest, hrest⟩ := List.head?_eq_some_iff.1 h
  exact ⟨sender, rest, hrest⟩

end Session

theorem Reachable.history (hs : Reachable g s) : ∃ past, History g past s := by
  induction hs with
  | built hb h => exact ⟨_, .built hb h⟩
  | @stepped s s' e _ h ih =>
    obtain ⟨past, ih⟩ := ih
    cases e with
    | none =>
      rw [Session.eq_of_step_none h]
      exact ⟨past, ih⟩
    | some e => exact ⟨_, ih.stepped h⟩
  | failed _ h hf ih => exact ih.elim fun past ih => ⟨_, ih.failed h hf⟩
  | posted _ h ih => exact ih.elim fun past ih => ⟨_, ih.posted h⟩
  | waited _ h ih => exact ih.elim fun past ih => ⟨_, ih.waited h⟩
  | intervened _ h ih => exact ih.elim fun past ih => ⟨_, ih.intervened h⟩

/-! ## Loops -/

/-- A loop with a test that ends well has handed out some events, and the clock shows the instant of
the last one. -/
theorem History.runWhile {accept : Event Payload → Bool} {budget : Nat} {u : Unit}
    (hs : History g past s) (h : s.runWhile World.handle accept budget = some (.ok u s')) :
    History g (s.trail World.handle (s'.handedOutSince s) ++ past) s' ∧
      s.simulation.processed ≤ s'.simulation.processed ∧
      (s' = s ∨ ∃ e, accept e = true ∧ s'.simulation.clock = e.time) := by
  unfold Session.handedOutSince
  induction budget generalizing s past with
  | zero => cases h
  | succ budget ih =>
    unfold Session.runWhile at h
    have hstays : s' = s → History g (s.trail World.handle
        (s'.simulation.processed - s.simulation.processed) ++ past) s' ∧
        s.simulation.processed ≤ s'.simulation.processed ∧
        (s' = s ∨ ∃ e, accept e = true ∧ s'.simulation.clock = e.time) := by
      rintro rfl
      rw [Nat.sub_self]
      exact ⟨hs, Nat.le_refl _, .inl rfl⟩
    cases hpeek : s.simulation.queue.peek? with
    | none =>
      rw [hpeek] at h
      cases h
      exact hstays rfl
    | some next =>
      simp only [hpeek] at h
      split_ifs at h with haccept
      · cases hstep : s.step World.handle with
        | error fault q =>
          rw [hstep] at h
          cases h
        | ok e q =>
          rw [hstep] at h
          obtain ⟨rfl, hclock, hprocessed⟩ := Session.step_of_peek? hpeek hstep
          obtain ⟨hhistory, hle, hlast⟩ := ih (hs.stepped hstep) h
          have hcount : s'.simulation.processed - s.simulation.processed =
              s'.simulation.processed - q.simulation.processed + 1 := by lia
          refine ⟨?_, by lia, .inr ?_⟩
          · rw [hcount, Session.trail, hstep, List.append_assoc]
            exact hhistory
          · rcases hlast with rfl | hlast
            · exact ⟨next, haccept, hclock⟩
            · exact hlast
      · cases h
        exact hstays rfl

/-- A run up to an instant that ends well leaves later events only, and the clock stands there
unless it had been past that instant before. -/
theorem History.runUntil {horizon : Time} {budget : Nat} {u : Unit} (hs : History g past s)
    (h : s.runUntil World.handle horizon budget = some (.ok u s')) :
    History g (s.trail World.handle (s'.handedOutSince s) ++ past) s' ∧
      (∀ e ∈ s'.simulation.queue.pending, horizon < e.time) ∧
      (s' = s.raiseClock horizon ∨ s'.simulation.clock = horizon) := by
  rw [Session.runUntil_eq] at h
  obtain ⟨stopped, hrun, hsettle⟩ := Option.map_eq_some_iff.1 h
  cases stopped with
  | error fault q => cases hsettle
  | ok u q =>
    cases hsettle
    obtain ⟨hhistory, -, hlast⟩ := hs.runWhile hrun
    have hlater := Session.later_of_runWhile hrun
    refine ⟨hhistory.waited hlater, hlater, ?_⟩
    rcases hlast with rfl | ⟨e, he, hclock⟩
    · exact .inl rfl
    · refine .inr (Nat.max_eq_right ?_)
      rw [hclock]
      exact of_decide_eq_true he

end FogNet
