import FogNet.World.Basic

/-!
# Traffic

The messages on their way without their numbers, with their instants (`EventQueue.entries`) and
without them (`EventQueue.payloads`). Posting adds a message somewhere; posting the answers to a
message adds a first part of them, and all of them unless an instant lies past the last one
(`postAll_spec`). Messages that are scheduled in a row are `numbered` in a row.
-/

namespace FogNet

/-- The payloads that wait for delivery. -/
def EventQueue.payloads (q : EventQueue Payload) : List Payload := q.pending.map (·.payload)

/-- What waits for delivery and when it is due, the most urgent first. -/
def EventQueue.entries (q : EventQueue Payload) : List (Time × Payload) :=
  q.pending.map fun e => (e.time, e.payload)

/-- What an event carries once the message is posted. -/
def Outgoing.payload (o : Outgoing) : Payload := .deliver o.sender o.receiver o.message

/-- When a message sent at an instant is due, and what it carries. -/
def Outgoing.entry (now : Time) (o : Outgoing) : Time × Payload := (now + o.delay, o.payload)

theorem payloads_eq_map_entries (q : EventQueue Payload) : q.payloads = q.entries.map Prod.snd := by
  unfold EventQueue.payloads EventQueue.entries
  rw [List.map_map]
  rfl

/-- What waits for delivery once some messages are posted, with and without the instants. -/
theorem payloads_perm_of_entries {now : Time} {sent : List Outgoing} {q : EventQueue Payload}
    {rest : List (Time × Payload)} (h : q.entries.Perm (sent.map (Outgoing.entry now) ++ rest)) :
    q.payloads.Perm (sent.map Outgoing.payload ++ rest.map Prod.snd) := by
  have hperm := h.map Prod.snd
  rw [List.map_append, List.map_map] at hperm
  rw [payloads_eq_map_entries]
  exact hperm

/-- The entries are in the order of their instants. -/
theorem entries_ordered (q : EventQueue Payload) : q.entries.Pairwise fun a b => a.1 ≤ b.1 := by
  unfold EventQueue.entries
  rw [List.pairwise_map]
  refine q.ordered.imp fun {a b} hab => ?_
  unfold Event.Precedes at hab
  lia

theorem entries_post_perm (q : EventQueue Payload) (due : Time) (p : Payload) :
    (q.post due p).entries.Perm ((due, p) :: q.entries) :=
  (placeEvent_perm (q.nextEvent due p) q.pending).map fun e : Event Payload => (e.time, e.payload)

theorem payloads_post_perm (q : EventQueue Payload) (due : Time) (p : Payload) :
    (q.post due p).payloads.Perm (p :: q.payloads) := by
  rw [payloads_eq_map_entries, payloads_eq_map_entries]
  exact (entries_post_perm q due p).map Prod.snd

theorem mem_payloads_post {q : EventQueue Payload} {due : Time} {p p' : Payload} :
    p' ∈ (q.post due p).payloads ↔ p' = p ∨ p' ∈ q.payloads := by
  rw [(payloads_post_perm q due p).mem_iff, List.mem_cons]

/-- What is to happen, numbered in order. -/
def numbered {π : Type} (entries : List (Time × π)) (start : EventId) : List (Event π) :=
  (entries.zipIdx start).map fun e => ⟨e.2, e.1.1, e.1.2⟩

theorem numbered_append {π : Type} (l l' : List (Time × π)) (start : EventId) :
    numbered (l ++ l') start = numbered l start ++ numbered l' (start + l.length) := by
  unfold numbered
  rw [List.zipIdx_append, List.map_append, Nat.add_comm]

theorem map_entry_numbered {π : Type} (l : List (Time × π)) (start : EventId) :
    ((numbered l start).map fun e => (e.time, e.payload)) = l := by
  unfold numbered
  rw [List.map_map]
  exact List.zipIdx_map_fst _ _

/-- What is scheduled is numbered in order. -/
theorem Simulation.foldl_schedule {α π : Type} (due : α → Time) (load : α → π) (l : List α)
    (sim : Simulation π) :
    let later := l.foldl (fun sim a => sim.schedule (due a) (load a)) sim
    later.queue.pending.Perm (sim.queue.pending ++
        numbered (l.map fun a => (due a, load a)) sim.queue.nextId) ∧
      later.queue.nextId = sim.queue.nextId + l.length := by
  induction l generalizing sim with
  | nil => simp [numbered]
  | cons a rest ih =>
    obtain ⟨hpending, hnext⟩ := ih (sim.schedule (due a) (load a))
    refine ⟨?_, ?_⟩
    · have hpost : (sim.schedule (due a) (load a)).queue.pending.Perm
          (⟨sim.queue.nextId, due a, load a⟩ :: sim.queue.pending) := placeEvent_perm _ _
      refine hpending.trans ((hpost.append_right _).trans ?_)
      exact List.perm_middle.symm
    · exact hnext.trans (Nat.add_right_comm _ _ _)

/-- The answers to a message are posted in order until one cannot be. -/
theorem postAll_spec (now : Time) (out : List Outgoing) (q : EventQueue Payload) :
    ∃ sent, sent <+: out ∧
      (postAll now out q).2.entries.Perm (sent.map (Outgoing.entry now) ++ q.entries) ∧
      ((postAll now out q).1 = .ok () → sent = out) ∧
      ∀ cause, (postAll now out q).1 = .error cause → ∃ delay, cause = .pastTheEnd now delay := by
  induction out generalizing q with
  | nil => exact ⟨[], List.prefix_refl _, List.Perm.refl _, fun _ => rfl, fun _ h => nomatch h⟩
  | cons o rest ih =>
    unfold postAll EventQueue.postAfter
    cases hdue : now.plus? o.delay with
    | none =>
      exact ⟨[], List.nil_prefix, List.Perm.refl _, nofun, fun cause h => ⟨o.delay, by
        injection h with h; exact h.symm⟩⟩
    | some due =>
      obtain ⟨sent, hpre, hperm, hall, hfail⟩ := ih (q.post due o.payload)
      refine ⟨o :: sent, List.cons_prefix_cons.2 ⟨rfl, hpre⟩, ?_, fun h => ?_, hfail⟩
      · refine hperm.trans ?_
        obtain ⟨rfl, -⟩ := Time.plus?_eq_some_iff.1 hdue
        refine ((entries_post_perm q _ o.payload).append_left _).trans ?_
        exact List.perm_middle
      · rw [hall h]

end FogNet
