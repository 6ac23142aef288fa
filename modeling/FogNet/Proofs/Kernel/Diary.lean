import FogNet.Proofs.Kernel.Routine

/-!
# What a handler sees

A `Diary` is kept from where a handler stands: it has the events that were handed over, each with
the instant that was given for it, and the events that were created, each with the number that was
given in answer. A handler that keeps a diary makes the same calls (`Conduct.recorded`), so its runs
are those of the handler that keeps none (`Session.map_noteAll`).

`Diary.Kept` ties a diary to the queue. It survives a posting that is not in the past
(`Diary.Kept.post`) and the taking out of the next event (`Diary.Kept.pop`), so it survives
routines, steps, loops and any sequence of calls (`Session.Faithful.noteAll`).
-/

namespace FogNet

/-- What a handler has seen, in the order in which it has seen it. -/
structure Diary (π : Type) where
  /-- The events that were handed over, each with the instant given for it. -/
  handed : List (Time × Event π)
  /-- The events that were created, each with the number given in answer. -/
  created : List (Event π)

variable {σ π ε : Type} {d : Diary π} {q rest : EventQueue π} {now later due : Time} {e : Event π}

namespace Diary

/-- The diary before anything happens. -/
def blank : Diary π := ⟨[], []⟩

/-- The events that were handed over. -/
def events (d : Diary π) : List (Event π) := d.handed.map Prod.snd

/-- Note that an event is handed over. -/
def hand (d : Diary π) (now : Time) (e : Event π) : Diary π :=
  { d with handed := d.handed ++ [(now, e)] }

/-- Note the answer to a posting. -/
def note (d : Diary π) (due : Time) (payload : π) : Except ScheduleError EventId → Diary π
  | .error _ => d
  | .ok id => { d with created := d.created ++ [⟨id, due, payload⟩] }

/-- A diary agrees with the queue at an instant. -/
structure Kept (d : Diary π) (q : EventQueue π) (now : Time) : Prop where
  /-- The instant given for an event is the one at which it was due. -/
  punctual : ∀ h ∈ d.handed, h.1 = h.2.time
  /-- Events that were handed over are not due later than now. -/
  past : ∀ e ∈ d.events, e.time ≤ now
  /-- Events that wait are not due earlier than now. -/
  future : ∀ e ∈ q.pending, now ≤ e.time
  /-- The events were handed over in order, and those that wait come after them. -/
  ordered : (d.events ++ q.pending).Pairwise Event.Precedes
  /-- The events were numbered in the order of their creation. -/
  numbered : d.created.map Event.id = List.range q.nextId
  /-- The events that were created are those handed over and those that wait. -/
  conserved : (d.events ++ q.pending).Perm d.created

theorem kept_blank : (blank : Diary π).Kept .empty 0 where
  punctual _ h := nomatch h
  past _ h := nomatch h
  future _ h := nomatch h
  ordered := List.Pairwise.nil
  numbered := rfl
  conserved := List.Perm.nil

theorem Kept.id_lt (hk : d.Kept q now) (he : e ∈ d.created) : e.id < q.nextId := by
  have hid := List.mem_map_of_mem (f := Event.id) he
  rwa [hk.numbered, List.mem_range] at hid

/-- An event is created that is not due in the past. -/
theorem Kept.post (hk : d.Kept q now) (hdue : now ≤ due) (payload : π) :
    (d.note due payload (.ok q.nextId)).Kept (q.post due payload) now where
  punctual := hk.punctual
  past := hk.past
  future a ha := by
    rcases mem_placeEvent.1 ha with rfl | ha
    · exact hdue
    · exact hk.future a ha
  ordered := by
    obtain ⟨hhanded, -, hcross⟩ := List.pairwise_append.1 hk.ordered
    refine List.pairwise_append.2 ⟨hhanded, (q.post due payload).ordered, fun a ha b hb => ?_⟩
    rcases mem_placeEvent.1 hb with rfl | hb
    · have hid := hk.id_lt (hk.conserved.subset (List.mem_append_left _ ha))
      have htime := hk.past a ha
      unfold Event.Precedes EventQueue.nextEvent
      lia
    · exact hcross a ha b hb
  numbered := by
    show (d.created ++ [_]).map Event.id = List.range (q.nextId + 1)
    rw [List.map_append, hk.numbered, List.range_succ]
    rfl
  conserved := by
    show (d.events ++ placeEvent (q.nextEvent due payload) q.pending).Perm
      (d.created ++ [q.nextEvent due payload])
    have hplace := (placeEvent_perm (q.nextEvent due payload) q.pending).append_left d.events
    have hmiddle : (d.events ++ q.nextEvent due payload :: q.pending).Perm
        (q.nextEvent due payload :: (d.events ++ q.pending)) := List.perm_middle
    have hend : (q.nextEvent due payload :: d.created).Perm
        (d.created ++ [q.nextEvent due payload]) := (List.perm_append_singleton _ _).symm
    exact hplace.trans (hmiddle.trans ((hk.conserved.cons _).trans hend))

/-- The next event is taken out and handed over at its instant. -/
theorem Kept.pop (hk : d.Kept q now) (hpop : q.pop? = some (e, rest)) :
    (d.hand e.time e).Kept rest e.time ∧ now ≤ e.time := by
  obtain ⟨hpending, hnext⟩ := EventQueue.pop?_eq_some_iff.1 hpop
  have hevents : (d.hand e.time e).events = d.events ++ [e] := List.map_append
  have hall : (d.hand e.time e).events ++ rest.pending = d.events ++ q.pending := by
    rw [hevents, hpending, List.append_assoc]
    rfl
  have hnow : now ≤ e.time := hk.future e (by rw [hpending]; exact List.mem_cons_self)
  have hrest := (List.pairwise_append.1 hk.ordered).2.1
  rw [hpending] at hrest
  refine ⟨⟨fun h hh => ?_, fun a ha => ?_, fun a ha => ?_, ?_, ?_, ?_⟩, hnow⟩
  · rcases List.mem_append.1 hh with hh | hh
    · exact hk.punctual h hh
    · rw [List.mem_singleton.1 hh]
  · rw [hevents, List.mem_append, List.mem_singleton] at ha
    rcases ha with ha | rfl
    · exact Nat.le_trans (hk.past a ha) hnow
    · exact Nat.le_refl _
  · have := (List.pairwise_cons.1 hrest).1 a ha
    unfold Event.Precedes at this
    lia
  · rw [hall]
    exact hk.ordered
  · rw [← hnext]
    exact hk.numbered
  · rw [hall]
    exact hk.conserved

/-- Time goes by, up to the next event at most. -/
theorem Kept.wait (hk : d.Kept q now) (hle : now ≤ later)
    (hlater : ∀ e ∈ q.pending, later ≤ e.time) : d.Kept q later :=
  { hk with past := fun e he => Nat.le_trans (hk.past e he) hle, future := hlater }

end Diary

/-! ## Handlers with a diary -/

/-- A routine that keeps a diary. -/
def Routine.recorded (now : Time) (d : Diary π) : Routine σ π ε → Routine (σ × Diary π) π ε
  | .finish state => .finish (state, d)
  | .fail cause state => .fail cause (state, d)
  | .postAt due payload next =>
    .postAt due payload fun answer => (next answer).recorded now (d.note due payload answer)
  | .postAfter delay payload next =>
    .postAfter delay payload fun answer =>
      (next answer).recorded now (d.note (now + delay) payload answer)
  | .count next => .count fun waiting => (next waiting).recorded now d

/-- The conduct that notes the event it is given and keeps a diary from then on. -/
def Conduct.recorded (c : Conduct σ π ε) : Conduct (σ × Diary π) π ε := fun now e state =>
  (c now e state.1).recorded now (state.2.hand now e)

/-- To keep a diary changes nothing else. -/
theorem Routine.perform_recorded (r : Routine σ π ε) (now : Time) (d : Diary π)
    (q : EventQueue π) :
    resultMap (Stage.map Prod.fst) ((r.recorded now d).perform now q) = r.perform now q := by
  induction r generalizing d q with
  | finish state | fail cause state => rfl
  | postAt due payload next ih =>
    unfold Routine.recorded Routine.perform
    split <;> exact ih _ _ _
  | postAfter delay payload next ih =>
    unfold Routine.recorded Routine.perform
    split <;> exact ih _ _ _
  | count next ih => exact ih _ _ _

theorem Conduct.handler_recorded (c : Conduct σ π ε) (now : Time) (e : Event π)
    (g : Stage (σ × Diary π) π) :
    resultMap (Stage.map Prod.fst) (c.recorded.handler now e g) =
      c.handler now e (g.map Prod.fst) :=
  Routine.perform_recorded _ _ _ _

/-- However a routine ends, the diary agrees with the queue. -/
theorem Routine.kept_perform (r : Routine σ π ε) (hk : d.Kept q now) :
    (stateOf ((r.recorded now d).perform now q)).state.2.Kept
      (stateOf ((r.recorded now d).perform now q)).queue now := by
  induction r generalizing d q with
  | finish state | fail cause state => exact hk
  | postAt due payload next ih =>
    unfold Routine.recorded Routine.perform
    cases hpost : q.postAt now due payload with
    | error cause => exact ih _ hk
    | ok answer =>
      unfold EventQueue.postAt at hpost
      split_ifs at hpost with hdue
      obtain rfl := Except.ok.inj hpost
      exact ih _ (hk.post (Nat.le_of_not_lt hdue) payload)
  | postAfter delay payload next ih =>
    unfold Routine.recorded Routine.perform
    cases hpost : q.postAfter now delay payload with
    | error cause => exact ih _ hk
    | ok answer =>
      unfold EventQueue.postAfter at hpost
      split at hpost
      · cases hpost
      · rename_i due hplus
        obtain ⟨rfl, -⟩ := Time.plus?_eq_some_iff.1 hplus
        obtain rfl := Except.ok.inj hpost
        exact ih _ (hk.post (Nat.le_add_right now delay) payload)
  | count next ih => exact ih _ hk

/-! ## Calls from outside -/

/-- A call on a simulation. -/
inductive Call (π : Type) where
  /-- Post an event. -/
  | schedule (due : Time) (payload : π)
  /-- Hand out one event. -/
  | step
  /-- Hand out some events. -/
  | runFor (max : Nat)
  /-- Hand out the events up to an instant; a budget is given that must suffice. -/
  | runUntil (horizon : Time) (budget : Nat)

namespace Session

/-- What a call leaves behind, whether it fails or not. Events are not posted in the past, and a
budget that does not suffice leaves nothing. -/
def call (handle : Handler σ π ε) (s : Session σ π) : Call π → Option (Session σ π)
  | .schedule due payload =>
    if s.simulation.clock ≤ due then
      some { s with simulation := s.simulation.schedule due payload }
    else none
  | .step => some (stateOf (s.step handle))
  | .runFor max => some (stateOf (s.runFor handle max))
  | .runUntil horizon budget => (s.runUntil handle horizon budget).map stateOf

/-- What some calls leave behind, one after the other. -/
def callAll (handle : Handler σ π ε) (s : Session σ π) (calls : List (Call π)) :
    Option (Session σ π) :=
  calls.foldlM (call handle) s

/-- What a call leaves behind if a diary is kept. Events that are posted from outside are noted. -/
def noteCall (c : Conduct σ π ε) (s : Session (σ × Diary π) π) (x : Call π) :
    Option (Session (σ × Diary π) π) :=
  match x with
  | .schedule due payload =>
    (s.call c.recorded.handler x).map fun t =>
      { t with state := (s.state.1, s.state.2.note due payload (.ok s.simulation.queue.nextId)) }
  | _ => s.call c.recorded.handler x

/-- What some calls leave behind, one after the other, if a diary is kept. -/
def noteAll (c : Conduct σ π ε) (s : Session (σ × Diary π) π) (calls : List (Call π)) :
    Option (Session (σ × Diary π) π) :=
  calls.foldlM (noteCall c) s

/-- A call does what it does without a diary. -/
theorem map_noteCall (c : Conduct σ π ε) (s : Session (σ × Diary π) π) (x : Call π) :
    (s.noteCall c x).map (map Prod.fst) = (s.map Prod.fst).call c.handler x := by
  have hstate : ∀ result : EStateM.Result ε (Session (σ × Diary π) π) Unit,
      (stateOf result).map Prod.fst = stateOf (resultMap (map Prod.fst) result) :=
    fun result => (stateOf_resultMap _ result).symm
  cases x with
  | schedule due payload =>
    have hclock : (s.map Prod.fst).simulation.clock = s.simulation.clock := rfl
    simp only [noteCall, call, hclock]
    split_ifs <;> rfl
  | step =>
    exact congrArg some ((stateOf_resultMap _ _).symm.trans
      (congrArg stateOf (map_step c.handler_recorded s)))
  | runFor max =>
    exact congrArg some ((hstate _).trans (congrArg stateOf (map_runFor c.handler_recorded max s)))
  | runUntil horizon budget =>
    simp only [noteCall, call]
    rw [← map_runUntil c.handler_recorded, Option.map_map, Option.map_map]
    congr 1
    funext result
    exact hstate result

theorem map_noteAll (c : Conduct σ π ε) (calls : List (Call π)) (s : Session (σ × Diary π) π) :
    (s.noteAll c calls).map (map Prod.fst) = (s.map Prod.fst).callAll c.handler calls := by
  unfold noteAll callAll
  induction calls generalizing s with
  | nil => rfl
  | cons x calls ih =>
    rw [List.foldlM_cons, List.foldlM_cons, ← map_noteCall]
    cases s.noteCall c x with
    | none => rfl
    | some t => exact ih t

/-! ## Faithful diaries -/

/-- The diary agrees with the queue, and each event in it has been counted. -/
structure Faithful (s : Session (σ × Diary π) π) : Prop where
  /-- The diary agrees with the queue at the instant that the clock shows. -/
  kept : s.state.2.Kept s.simulation.queue s.simulation.clock
  /-- Each event that was handed over has been counted. -/
  counted : s.simulation.processed = s.state.2.handed.length

variable {c : Conduct σ π ε} {s t : Session (σ × Diary π) π}

theorem faithful_start (state : σ) : Faithful ⟨.start, (state, (.blank : Diary π))⟩ :=
  ⟨Diary.kept_blank, rfl⟩

/-- The events that a routine notes are created, not handed over. -/
theorem handed_perform (r : Routine σ π ε) (now : Time) (d : Diary π) (q : EventQueue π) :
    (stateOf ((r.recorded now d).perform now q)).state.2.handed = d.handed := by
  have hnote : ∀ (d : Diary π) due payload answer, (d.note due payload answer).handed = d.handed :=
    fun d due payload answer => by cases answer <;> rfl
  induction r generalizing d q with
  | finish state | fail cause state => rfl
  | postAt due payload next ih | postAfter delay payload next ih =>
    unfold Routine.recorded Routine.perform
    split <;> rw [ih, hnote]
  | count next ih => exact ih _ _ _

/-- A step keeps the diary faithful, whether it fails or not, and does not turn back the clock. -/
theorem Faithful.step (hs : s.Faithful) :
    (stateOf (s.step c.recorded.handler)).Faithful ∧
      s.simulation.clock ≤ (stateOf (s.step c.recorded.handler)).simulation.clock := by
  unfold Session.step
  cases hpop : s.simulation.queue.pop? with
  | none => exact ⟨hs, Nat.le_refl _⟩
  | some next =>
    obtain ⟨e, rest⟩ := next
    obtain ⟨hkept, hclock⟩ := hs.kept.pop hpop
    have hroutine := (c e.time e s.state.1).kept_perform hkept
    have hhanded := handed_perform (c e.time e s.state.1) e.time
      (s.state.2.hand e.time e) rest
    have hcount : (s.state.2.hand e.time e).handed.length = s.simulation.processed + 1 := by
      rw [hs.counted]
      exact List.length_append
    rw [← hhanded] at hcount
    dsimp only
    have hhandle : c.recorded.handler e.time e ⟨s.state, rest⟩ =
        ((c e.time e s.state.1).recorded e.time (s.state.2.hand e.time e)).perform e.time rest :=
      rfl
    rw [hhandle]
    cases hend : ((c e.time e s.state.1).recorded e.time (s.state.2.hand e.time e)).perform
        e.time rest with
    | ok u g | error cause g =>
      rw [hend] at hroutine hcount
      exact ⟨⟨hroutine, hcount.symm⟩, hclock⟩

/-- So does every call. -/
theorem Faithful.noteCall {x : Call π} (hs : s.Faithful) (h : s.noteCall c x = some t) :
    t.Faithful ∧ s.simulation.clock ≤ t.simulation.clock := by
  have hstep : ∀ q : Session (σ × Diary π) π,
      q.Faithful ∧ s.simulation.clock ≤ q.simulation.clock →
        (stateOf (q.step c.recorded.handler)).Faithful ∧
          s.simulation.clock ≤ (stateOf (q.step c.recorded.handler)).simulation.clock :=
    fun q hq => ⟨hq.1.step.1, Nat.le_trans hq.2 hq.1.step.2⟩
  have hstart : s.Faithful ∧ s.simulation.clock ≤ s.simulation.clock := ⟨hs, Nat.le_refl _⟩
  cases x with
  | schedule due payload =>
    simp only [Session.noteCall, call] at h
    split_ifs at h with hdue
    · obtain rfl := Option.some.inj h
      exact ⟨⟨hs.kept.post hdue payload, hs.counted⟩, Nat.le_refl _⟩
    · cases h
  | step =>
    obtain rfl := Option.some.inj h
    exact hs.step
  | runFor max =>
    obtain rfl := Option.some.inj h
    exact kept_runFor hstep hstart max
  | runUntil horizon budget =>
    obtain ⟨result, hrun, rfl⟩ := Option.map_eq_some_iff.1 h
    rw [runUntil_eq] at hrun
    obtain ⟨stopped, hstopped, rfl⟩ := Option.map_eq_some_iff.1 hrun
    obtain ⟨hfaithful, hclock⟩ := kept_runWhile hstep hstart hstopped
    cases stopped with
    | error cause q => exact ⟨hfaithful, hclock⟩
    | ok u q =>
      have hlater := later_of_runWhile hstopped
      refine ⟨⟨hfaithful.kept.wait (Nat.le_max_left _ _) fun e he => ?_, hfaithful.counted⟩,
        Nat.le_trans hclock (Nat.le_max_left _ _)⟩
      exact Nat.max_le.2 ⟨hfaithful.kept.future e he, Nat.le_of_lt (hlater e he)⟩

theorem Faithful.noteAll {calls : List (Call π)} (hs : s.Faithful)
    (h : s.noteAll c calls = some t) : t.Faithful := by
  unfold Session.noteAll at h
  induction calls generalizing s with
  | nil =>
    obtain rfl := Option.some.inj h
    exact hs
  | cons x calls ih =>
    rw [List.foldlM_cons] at h
    obtain ⟨q, hq, h⟩ := Option.bind_eq_some_iff.1 h
    exact ih (hs.noteCall hq).1 h

end Session

end FogNet
