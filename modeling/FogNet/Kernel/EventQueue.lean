import FogNet.Kernel.Event

/-!
# The event queue

The queue is the list of pending events in delivery order, together with the number the next event
gets. Posting puts an event behind those due at the same instant, so the list stays strictly
ordered; taking the next event removes the head. `pending_post` and `pop?_eq_some_iff` say what the
two operations do to the list. By urgency (`Event.compareUrgency`) the queue is a heap: the event
taken out is more urgent than all that stay (`compareUrgency_of_pop?`), and the events come out in
the order into which sorting by urgency brings them, however they were piled up
(`mostUrgentFirst_of_perm_pending`).
-/

namespace FogNet

/-- Why an event cannot be posted. -/
inductive ScheduleError where
  /-- The requested instant has passed. -/
  | inThePast (requested current : Time)
  /-- The delay leads past the last instant. -/
  | pastTheEnd (now : Time) (delay : Nat)
deriving DecidableEq

/-- The wording of a scheduling error. -/
def ScheduleError.message : ScheduleError → String
  | inThePast requested current =>
    s!"cannot schedule event at T={requested} when current time is T={current}"
  | pastTheEnd now delay => s!"virtual time overflow scheduling {delay} ticks after T={now}"

/-- Put an event behind all that are due no later. -/
def placeEvent {π : Type} (e : Event π) : List (Event π) → List (Event π)
  | [] => [e]
  | d :: rest => if e.time < d.time then e :: d :: rest else d :: placeEvent e rest

@[simp] theorem mem_placeEvent {π : Type} {e a : Event π} {l : List (Event π)} :
    a ∈ placeEvent e l ↔ a = e ∨ a ∈ l := by
  induction l with
  | nil => simp [placeEvent]
  | cons d rest ih => grind [placeEvent]

theorem placeEvent_perm {π : Type} (e : Event π) (l : List (Event π)) :
    (placeEvent e l).Perm (e :: l) := by
  induction l with
  | nil => exact List.Perm.refl _
  | cons d rest ih =>
    unfold placeEvent
    split
    · exact List.Perm.refl _
    · exact (ih.cons d).trans (List.Perm.swap e d rest)

theorem ordered_placeEvent {π : Type} {e : Event π} {l : List (Event π)}
    (ho : l.Pairwise Event.Precedes) (hf : ∀ a ∈ l, a.id < e.id) :
    (placeEvent e l).Pairwise Event.Precedes := by
  induction l with
  | nil => simp [placeEvent]
  | cons d rest ih =>
    obtain ⟨hd, hr⟩ := List.pairwise_cons.1 ho
    unfold placeEvent
    split
    · rename_i hlt
      refine List.pairwise_cons.2 ⟨fun a ha => ?_, ho⟩
      rcases List.mem_cons.1 ha with rfl | ha
      · exact Or.inl hlt
      · have := hd a ha
        unfold Event.Precedes at *; lia
    · rename_i hle
      refine List.pairwise_cons.2 ⟨fun a ha => ?_, ih hr fun a ha => hf a (by simp [ha])⟩
      rcases mem_placeEvent.1 ha with rfl | ha
      · have := hf d (by simp)
        unfold Event.Precedes; lia
      · exact hd a ha

/-- Events that wait for delivery. -/
structure EventQueue (π : Type) where
  /-- The waiting events in delivery order. -/
  pending : List (Event π)
  /-- The number of the next event. -/
  nextId : EventId
  /-- Each event is delivered before all behind it. -/
  ordered : pending.Pairwise Event.Precedes
  /-- The waiting events have numbers already given. -/
  fresh : ∀ e ∈ pending, e.id < nextId

namespace EventQueue

variable {π : Type}

/-- The queue of a new simulation. -/
def empty : EventQueue π := ⟨[], 0, List.Pairwise.nil, by simp⟩

/-- The number of waiting events. -/
def size (q : EventQueue π) : Nat := q.pending.length

/-- Whether no event waits. -/
def isEmpty (q : EventQueue π) : Bool := q.pending.isEmpty

/-- The event that is delivered next. -/
def peek? (q : EventQueue π) : Option (Event π) := q.pending.head?

/-- The event that the next posting creates. -/
def nextEvent (q : EventQueue π) (due : Time) (payload : π) : Event π := ⟨q.nextId, due, payload⟩

/-- Create an event and let it wait for its instant. -/
def post (q : EventQueue π) (due : Time) (payload : π) : EventQueue π where
  pending := placeEvent (q.nextEvent due payload) q.pending
  nextId := q.nextId + 1
  ordered := ordered_placeEvent q.ordered fun a ha => q.fresh a ha
  fresh := fun e he => by
    rcases mem_placeEvent.1 he with rfl | he
    · exact Nat.lt_succ_self _
    · exact Nat.lt_succ_of_lt (q.fresh e he)

/-- Create an event at an instant that has not passed, and tell its number. -/
def postAt (q : EventQueue π) (now due : Time) (payload : π) :
    Except ScheduleError (EventId × EventQueue π) :=
  if due < now then .error (.inThePast due now) else .ok (q.nextId, q.post due payload)

/-- Create an event some ticks from now, and tell its number. -/
def postAfter (q : EventQueue π) (now : Time) (delay : Nat) (payload : π) :
    Except ScheduleError (EventId × EventQueue π) :=
  match now.plus? delay with
  | none => .error (.pastTheEnd now delay)
  | some due => .ok (q.nextId, q.post due payload)

/-- Take the next event out. -/
def pop? (q : EventQueue π) : Option (Event π × EventQueue π) :=
  match q with
  | ⟨[], _, _, _⟩ => none
  | ⟨e :: rest, nextId, ordered, fresh⟩ =>
    some (e, ⟨rest, nextId, ordered.of_cons, fun a ha => fresh a (List.mem_cons_of_mem e ha)⟩)

/-- The queue after all waiting events have been taken out. -/
def drained (q : EventQueue π) : EventQueue π :=
  ⟨[], q.nextId, List.Pairwise.nil, by simp⟩

@[simp] theorem pending_post (q : EventQueue π) (due : Time) (payload : π) :
    (q.post due payload).pending = placeEvent (q.nextEvent due payload) q.pending := rfl

theorem pop?_eq_some_iff {q r : EventQueue π} {e : Event π} :
    q.pop? = some (e, r) ↔ q.pending = e :: r.pending ∧ q.nextId = r.nextId := by
  obtain ⟨pending, nextId, ordered, fresh⟩ := q
  obtain ⟨pending', nextId', _, _⟩ := r
  cases pending <;> simp [pop?, and_assoc]

theorem pop?_eq_none_iff {q : EventQueue π} : q.pop? = none ↔ q.pending = [] := by
  obtain ⟨pending, nextId, ordered, fresh⟩ := q
  cases pending <;> simp [pop?]

/-- The event taken out is more urgent than all that stay. -/
theorem compareUrgency_of_pop? {q r : EventQueue π} {e d : Event π} (h : q.pop? = some (e, r))
    (hd : d ∈ r.pending) : e.compareUrgency d = .gt := by
  have hordered := q.ordered
  rw [(pop?_eq_some_iff.1 h).1] at hordered
  exact Event.compareUrgency_eq_gt_iff.2 (List.rel_of_pairwise_cons hordered hd)

/-- Sorting the waiting events by growing urgency puts the one that is delivered next at the end. -/
theorem leastUrgentFirst_of_perm_pending {q : EventQueue π} {l : List (Event π)}
    (hl : l.Perm q.pending) : Event.leastUrgentFirst l = q.pending.reverse :=
  Event.leastUrgentFirst_eq_of_perm hl q.ordered

/-- Sorting the waiting events by falling urgency lists them as they are delivered. -/
theorem mostUrgentFirst_of_perm_pending {q : EventQueue π} {l : List (Event π)}
    (hl : l.Perm q.pending) : Event.mostUrgentFirst l = q.pending :=
  Event.mostUrgentFirst_eq_of_perm hl q.ordered

end EventQueue

end FogNet
