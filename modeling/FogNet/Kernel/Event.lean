import FogNet.Kernel.Time

/-!
# Events

An event is due at an instant and carries a number that tells apart the events of one instant.
Events are delivered in the order of these two (`Event.Precedes`). Urgency is the same order read
from the other end (`Event.compareUrgency_eq_gt_iff`), so sorting by urgency puts events of which no
two tie in the order of delivery (`Event.mostUrgentFirst_eq_of_perm`) or in the reverse of it
(`Event.leastUrgentFirst_eq_of_perm`).
-/

namespace FogNet

/-- The number of an event, given in order of creation. -/
abbrev EventId := Nat

/-- The text of an event number. -/
def EventId.text (id : EventId) : String := s!"E#{id}"

/-- Something that is due at an instant. -/
structure Event (π : Type) where
  /-- The number of the event. -/
  id : EventId
  /-- The instant at which the event is due. -/
  time : Time
  /-- What the event carries. -/
  payload : π

namespace Event

variable {π : Type} {a b c : Event π} {l m : List (Event π)}

/-- Whether an event is delivered before another one: it is due earlier, or at the same instant and
was created earlier. -/
def Precedes (a b : Event π) : Prop := a.time < b.time ∨ a.time = b.time ∧ a.id < b.id

instance (a b : Event π) : Decidable (a.Precedes b) :=
  inferInstanceAs (Decidable (_ ∨ _))

theorem Precedes.trans (hab : a.Precedes b) (hbc : b.Precedes c) : a.Precedes c := by
  unfold Precedes at *; lia

theorem Precedes.irrefl (a : Event π) : ¬ a.Precedes a := by
  unfold Precedes; lia

theorem not_precedes_total (a b : Event π) : ¬ a.Precedes b ∨ ¬ b.Precedes a := by
  unfold Precedes; lia

theorem not_precedes_trans (hab : ¬ a.Precedes b) (hbc : ¬ b.Precedes c) : ¬ a.Precedes c := by
  unfold Precedes at *; lia

/-- Events of which no two tie are in the order of delivery if none stands before one that precedes
it. -/
theorem eq_of_pairwise_not_precedes (hl : l.Perm m) (hm : m.Pairwise Precedes)
    (hsorted : l.Pairwise fun a b => ¬ b.Precedes a) : l = m := by
  have hapart : l.Pairwise fun a b => a.Precedes b ∨ b.Precedes a :=
    (hl.pairwise_iff Or.symm).2 (hm.imp Or.inl)
  have hstrict : l.Pairwise Precedes := (hsorted.and hapart).imp fun h => h.2.resolve_right h.1
  exact hl.eq_of_pairwise (fun a b _ _ hab hba => (Precedes.irrefl a (hab.trans hba)).elim)
    hstrict hm

/-! ## Urgency -/

/-- Urgency, greatest for the event that is delivered first. -/
def compareUrgency (a b : Event π) : Ordering :=
  (compare b.time a.time).then (compare b.id a.id)

/-- Events by growing urgency; events that tie keep their order. -/
def leastUrgentFirst (events : List (Event π)) : List (Event π) :=
  events.mergeSort (fun a b => a.compareUrgency b != .gt)

/-- Events in delivery order; events that tie keep their order. -/
def mostUrgentFirst (events : List (Event π)) : List (Event π) :=
  events.mergeSort (fun a b => a.compareUrgency b != .lt)

theorem compareUrgency_eq_gt_iff : a.compareUrgency b = .gt ↔ a.Precedes b := by
  unfold compareUrgency Precedes
  rw [Ordering.then_eq_gt, Nat.compare_eq_gt, Nat.compare_eq_gt, Nat.compare_eq_eq,
    eq_comm (a := b.time)]

theorem compareUrgency_eq_lt_iff : a.compareUrgency b = .lt ↔ b.Precedes a := by
  unfold compareUrgency Precedes
  rw [Ordering.then_eq_lt, Nat.compare_eq_lt, Nat.compare_eq_lt, Nat.compare_eq_eq]

/-- A list sorted by a test that stands for a total preorder is sorted by this order. -/
theorem pairwise_mergeSort_of_iff {le : Event π → Event π → Bool} {R : Event π → Event π → Prop}
    (hle : ∀ a b, le a b = true ↔ R a b) (htotal : ∀ a b, R a b ∨ R b a)
    (htrans : ∀ a b c, R a b → R b c → R a c) (l : List (Event π)) : (l.mergeSort le).Pairwise R := by
  refine (List.pairwise_mergeSort (fun a b c hab hbc => ?_) (fun a b => ?_) l).imp (hle _ _).1
  · rw [hle] at *
    exact htrans a b c hab hbc
  · rw [Bool.or_eq_true, hle, hle]
    exact htotal a b

theorem leastUrgentFirst_sorted (l : List (Event π)) :
    (leastUrgentFirst l).Pairwise fun a b => ¬ a.Precedes b :=
  pairwise_mergeSort_of_iff (fun a b => by simp [compareUrgency_eq_gt_iff]) not_precedes_total
    (fun _ _ _ hab hbc => not_precedes_trans hab hbc) l

theorem mostUrgentFirst_sorted (l : List (Event π)) :
    (mostUrgentFirst l).Pairwise fun a b => ¬ b.Precedes a :=
  pairwise_mergeSort_of_iff (fun a b => by simp [compareUrgency_eq_lt_iff])
    (fun a b => not_precedes_total b a) (fun _ _ _ hab hbc => not_precedes_trans hbc hab) l

/-- Sorting by growing urgency reverses the order of delivery. -/
theorem leastUrgentFirst_eq_of_perm (hl : l.Perm m) (hm : m.Pairwise Precedes) :
    leastUrgentFirst l = m.reverse := by
  have hperm : (leastUrgentFirst l).reverse.Perm m :=
    (List.reverse_perm _).trans ((List.mergeSort_perm l _).trans hl)
  exact List.reverse_eq_iff.1 <| eq_of_pairwise_not_precedes hperm hm <|
    List.pairwise_reverse.2 (leastUrgentFirst_sorted l)

/-- Sorting by falling urgency restores the order of delivery. -/
theorem mostUrgentFirst_eq_of_perm (hl : l.Perm m) (hm : m.Pairwise Precedes) :
    mostUrgentFirst l = m :=
  eq_of_pairwise_not_precedes ((List.mergeSort_perm l _).trans hl) hm (mostUrgentFirst_sorted l)

end Event

end FogNet
