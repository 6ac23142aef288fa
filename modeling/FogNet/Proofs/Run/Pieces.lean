import FogNet.Proofs.Run.Handover

/-!
# Runs in pieces

A run up to an instant may be cut at any earlier one. Where the first piece ends well, the rest
comes to the end that the whole run comes to, fault or not, and the pieces hand out the events of
the whole (`Session.Finishes.pieces`). At the cut the clock stands at an instant at which nothing
may happen; that is not seen by any handler.
-/

namespace FogNet

open Registry

namespace Session

variable {σ π ε : Type} {handle : Handler σ π ε} {a b : Time} {s s' : Session σ π}
  {result : EStateM.Result ε (Session σ π) Unit}

/-- A run comes to the end to which it comes from a cut. -/
theorem Finishes.resume_iff {u : Unit} (h : s.Finishes handle a (.ok u s')) (hab : a ≤ b) :
    s'.Finishes handle b result ↔ s.Finishes handle b result := by
  obtain ⟨stopped, hstops, hsettle⟩ := finishes_iff.1 h
  cases stopped with
  | error cause q => cases hsettle
  | ok u q =>
    cases hsettle
    have hclock : (q.raiseClock a).Finishes handle b result ↔ q.Finishes handle b result := by
      simp only [Finishes, runUntil_raiseClock hab]
    have hearlier : ∀ e : Event π, decide (e.time ≤ a) = true → decide (e.time ≤ b) = true :=
      fun e he => decide_eq_true (Nat.le_trans (of_decide_eq_true he) hab)
    rw [hclock, finishes_iff, finishes_iff]
    simp only [hstops.resume hearlier]

/-- The pieces hand out as many events as the whole run. -/
theorem Finishes.handedOutSince_eq {u v : Unit} {q : Session σ π}
    (h : s.Finishes handle a (.ok u s')) (hrest : s'.Finishes handle b (.ok v q)) :
    q.handedOutSince s = s'.handedOutSince s + q.handedOutSince s' := by
  have hfirst : s.simulation.processed ≤ s'.simulation.processed := h.processed_le
  have hsecond : s'.simulation.processed ≤ q.simulation.processed := hrest.processed_le
  unfold handedOutSince
  lia

/-- Once a run up to an instant has ended well, the run from there to a later instant and the run
from the start to it agree: the one comes to an end if and only if the other does, with the same
fault or none and with the same session, and the events of the whole run are those of the two
pieces. That the clock was moved in between is not seen: where an event waits, the next step is the
same as if it had not been moved. -/
theorem Finishes.pieces {u : Unit} (hab : a ≤ b) (h : s.Finishes handle a (.ok u s')) :
    (∀ result, s'.Finishes handle b result ↔ s.Finishes handle b result) ∧
      (∀ v q, s.Finishes handle b (.ok v q) →
        q.handedOutSince s = s'.handedOutSince s + q.handedOutSince s') ∧
      ∀ (q : Session σ π) (time : Time) (next : Event π),
        q.simulation.queue.peek? = some next → (q.raiseClock time).step handle = q.step handle :=
  ⟨fun _ => h.resume_iff hab,
    fun _ _ hwhole => h.handedOutSince_eq ((h.resume_iff hab).2 hwhole),
    fun _ time _ hpeek => step_raiseClock time hpeek⟩

end Session

namespace Crossing

theorem isSome_upTo_ten : (upTo 10).isSome = true := by decide +kernel

/-- The network when the walker has reported itself for the first time. -/
def report : Session World Payload := (upTo 10).get isSome_upTo_ten

theorem upTo_ten : upTo 10 = some report := (Option.some_get isSome_upTo_ten).symm

theorem finishes_of_upTo {horizon : Time} {s : Session World Payload}
    (h : upTo horizon = some s) : first.Finishes World.handle horizon (.ok () s) := by
  obtain ⟨q, hstart, hrun⟩ := runUntil_of_upTo h
  rw [start_eq] at hstart
  obtain rfl := Except.ok.inj hstart
  exact ⟨8, hrun⟩

end Crossing

/-- A run in which the walker is handed over, cut between its report and what follows from it: one
event comes before the cut and two after it. -/
theorem Session.Finishes.pieces_walker :
    Crossing.report.Finishes World.handle 13 (.ok () Crossing.pause) ∧
      Crossing.pause.handedOutSince Crossing.first =
        Crossing.report.handedOutSince Crossing.first +
          Crossing.pause.handedOutSince Crossing.report ∧
      Crossing.report.handedOutSince Crossing.first = 1 ∧
      Crossing.pause.handedOutSince Crossing.report = 2 := by
  obtain ⟨hresult, hcount, -⟩ := Session.Finishes.pieces (by decide : 10 ≤ 13)
    (Crossing.finishes_of_upTo Crossing.upTo_ten)
  have hwhole := Crossing.finishes_of_upTo Crossing.upTo_thirteen
  exact ⟨(hresult _).2 hwhole, hcount () _ hwhole, by decide +kernel, by decide +kernel⟩

end FogNet
