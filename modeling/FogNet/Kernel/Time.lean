/-!
# Virtual time

Time is counted in ticks from zero and has a last instant, `Time.limit`; moving past it is refused.
-/

namespace FogNet

/-- An instant of virtual time, in ticks. -/
abbrev Time := Nat

namespace Time

/-- The last instant there is. -/
def limit : Time := 18446744073709551615

/-- The instant `delay` ticks later, unless it lies past the last one. -/
def plus? (t : Time) (delay : Nat) : Option Time :=
  if t + delay ≤ limit then some (t + delay) else none

/-- The ticks from an earlier instant to a later one. -/
def since? (later earlier : Time) : Option Nat :=
  if earlier ≤ later then some (later - earlier) else none

/-- The ticks from one instant to another, none if the order is the other way. -/
def elapsed (now last : Time) : Nat := (since? now last).getD 0

/-- The text of an instant. -/
def text (t : Time) : String := s!"T={t}"

theorem elapsed_eq (now last : Time) : elapsed now last = now - last := by
  unfold elapsed since?
  split
  · rfl
  · simp only [Option.getD_none]; lia

theorem plus?_eq_some_iff {t u : Time} {delay : Nat} :
    t.plus? delay = some u ↔ u = t + delay ∧ t + delay ≤ limit := by
  unfold plus?
  split <;> simp_all [eq_comm]

end Time

end FogNet
