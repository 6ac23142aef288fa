import FogNet.Plane.Motion
import FogNet.Plane.Rational
import Mathlib.Algebra.BigOperators.Group.Finset.Basic
import Mathlib.Algebra.Group.ModEq
import Mathlib.Data.List.Induction
import Mathlib.Order.Bounds.Basic
import Mathlib.Order.Interval.Set.Defs
import Mathlib.Tactic.Linarith
import Mathlib.Tactic.Ring

/-!
# Wrapped journeys

Something that moves is told to advance, to turn, to stop and to go on (`Motion.Command`). Over the
rational numbers wrapping takes away whole extents and nothing else, so the commands alone say how
far it has travelled: each advance adds the velocity set last, for the time past the latest instant
named before, while moving is allowed (`Motion.Command.travel`). What one command keeps of this
(`Motion.Tracks.after`) holds after all of them: the position lies in the bounds, and on each axis
it is where the start and the travel lead, up to whole extents (`Motion.wraps_around`).
-/

namespace FogNet

open AddCommGroup

/-! ## Wrapping an axis -/

section Axis

variable {extent : ℚ} (hextent : 0 < extent)

include hextent

theorem remainder_mem_Ico (value : ℚ) : Coordinate.remainder value extent ∈ Set.Ico 0 extent :=
  ⟨Coordinate.remainder_nonneg value hextent.ne',
    (Coordinate.remainder_lt value hextent.ne').trans_eq (abs_of_pos hextent)⟩

/-- Without rounding, what lies outside a range is moved by its remainder. -/
theorem wrapAxis_of_outside {value origin : ℚ}
    (h : ¬ (origin ≤ value ∧ value ≤ origin + extent)) :
    wrapAxis value origin extent = origin + Coordinate.remainder (value - origin) extent := by
  unfold wrapAxis
  rw [if_neg h]
  exact if_neg (remainder_mem_Ico hextent _).2.not_ge

theorem wrapAxis_mem_Icc (value origin : ℚ) :
    wrapAxis value origin extent ∈ Set.Icc origin (origin + extent) := by
  by_cases h : origin ≤ value ∧ value ≤ origin + extent
  · rw [show wrapAxis value origin extent = value from if_pos h]
    exact h
  · obtain ⟨hnonneg, hlt⟩ := remainder_mem_Ico hextent (value - origin)
    rw [wrapAxis_of_outside hextent h]
    exact ⟨by linarith, by linarith⟩

/-- Wrapping takes away whole extents. -/
theorem wrapAxis_modEq (value origin : ℚ) :
    wrapAxis value origin extent ≡ value [PMOD extent] := by
  by_cases h : origin ≤ value ∧ value ≤ origin + extent
  · rw [show wrapAxis value origin extent = value from if_pos h]
  · refine modEq_iff_eq_add_zsmul.2 ⟨⌊(value - origin) / |extent|⌋, ?_⟩
    rw [wrapAxis_of_outside hextent h, Coordinate.remainder_rat, abs_of_pos hextent, zsmul_eq_mul]
    ring

end Axis

namespace Rectangle

theorem positiveExtent_pos (extent : ℚ) : 0 < positiveExtent extent := by
  unfold positiveExtent
  split_ifs with h
  · exact h
  · exact zero_lt_one

theorem contains_iff {r : Rectangle ℚ} {p : Point ℚ} :
    r.contains p = true ↔
      p.x ∈ Set.Icc r.x (r.x + r.width) ∧ p.y ∈ Set.Icc r.y (r.y + r.height) := by
  simp only [contains, Bool.and_eq_true, decide_eq_true_eq, Set.mem_Icc, and_assoc]

end Rectangle

namespace Motion

/-! ## Commands -/

/-- What something that moves can be told. -/
inductive Command (α : Type) where
  /-- To move for the time up to an instant. -/
  | advance (now : Time)
  /-- To take another velocity. -/
  | setDirection (velocity : Vec α)
  /-- To move from now on, or to stay where it is. -/
  | setMobile (mobile : Bool)

/-- What a command makes of something that moves. -/
def after {α : Type} [Coordinate α] (m : Motion α) : Command α → Motion α
  | .advance now => m.advance now
  | .setDirection velocity => m.setDirection velocity
  | .setMobile mobile => m.setMobile mobile

namespace Command

/-- The instant that an advance names. -/
def instant? {α : Type} : Command α → Option Time
  | advance now => some now
  | _ => none

/-- The velocity that a command sets. -/
def direction? {α : Type} : Command α → Option (Vec α)
  | setDirection velocity => some velocity
  | _ => none

/-- Whether moving is allowed from a command on, if the command says so. -/
def mobility? {α : Type} : Command α → Option Bool
  | setMobile mobile => some mobile
  | _ => none

variable {α : Type}

/-- The latest instant that some commands name, zero without any. -/
def latest (commands : List (Command α)) : Time := (commands.filterMap instant?).foldl max 0

/-- The velocity set last, or the one at first. -/
def heading (velocity : Vec α) (commands : List (Command α)) : Vec α :=
  (commands.filterMap direction?).getLastD velocity

/-- Whether moving is allowed after some commands, as it is at first. -/
def allowed (commands : List (Command α)) : Bool := (commands.filterMap mobility?).getLastD true

/-- How far a command leads something along an axis: an advance leads as far as the velocity does in
the time past the last update, if moving is allowed. -/
def stride (axis : Vec ℚ → ℚ) (mobile : Bool) (velocity : Vec ℚ) (last : Time) : Command ℚ → ℚ
  | advance now => if mobile then axis velocity * (now - last : ℕ) else 0
  | _ => 0

/-- How far a command leads along an axis, by the commands before it. -/
def leg (axis : Vec ℚ → ℚ) (velocity : Vec ℚ) (earlier : List (Command ℚ)) : Command ℚ → ℚ :=
  stride axis (allowed earlier) (heading velocity earlier) (latest earlier)

/-- How far some commands lead along an axis, if nothing is wrapped. -/
def travel (axis : Vec ℚ → ℚ) (velocity : Vec ℚ) (commands : List (Command ℚ)) : ℚ :=
  ∑ i ∈ Finset.range commands.length, commands[i]?.elim 0 (leg axis velocity (commands.take i))

theorem isGreatest_latest (commands : List (Command α)) :
    IsGreatest {t | t = 0 ∨ advance t ∈ commands} (latest commands) := by
  have hmem : ∀ t, t ∈ 0 :: commands.filterMap instant? ↔ t = 0 ∨ advance t ∈ commands := by
    intro t
    rw [List.mem_cons, List.mem_filterMap]
    refine or_congr_right ⟨?_, fun h => ⟨_, h, rfl⟩⟩
    rintro ⟨c, hc, ht⟩
    cases c with
    | advance now => exact Option.some.inj ht ▸ hc
    | setDirection velocity => cases ht
    | setMobile mobile => cases ht
  have hmax : (0 :: commands.filterMap instant?).max? = some (latest commands) := List.max?_cons'
  obtain ⟨hlatest, hle⟩ := List.max?_eq_some_iff.1 hmax
  exact ⟨(hmem _).1 hlatest, fun t ht => hle t ((hmem t).2 ht)⟩

theorem latest_concat (commands : List (Command α)) (c : Command α) :
    latest (commands ++ [c]) = max (latest commands) ((instant? c).getD 0) := by
  unfold latest
  rw [List.filterMap_append, List.foldl_append]
  cases c with
  | advance now => rfl
  | setDirection velocity => exact (max_eq_left (Nat.zero_le _)).symm
  | setMobile mobile => exact (max_eq_left (Nat.zero_le _)).symm

theorem heading_concat (velocity : Vec α) (commands : List (Command α)) (c : Command α) :
    heading velocity (commands ++ [c]) = (direction? c).getD (heading velocity commands) := by
  unfold heading
  rw [List.filterMap_append]
  cases c <;> simp [direction?]

theorem allowed_concat (commands : List (Command α)) (c : Command α) :
    allowed (commands ++ [c]) = (mobility? c).getD (allowed commands) := by
  unfold allowed
  rw [List.filterMap_append]
  cases c <;> simp [mobility?]

theorem travel_concat (axis : Vec ℚ → ℚ) (velocity : Vec ℚ) (commands : List (Command ℚ))
    (c : Command ℚ) :
    travel axis velocity (commands ++ [c]) =
      travel axis velocity commands + leg axis velocity commands c := by
  unfold travel
  rw [List.length_append, List.length_singleton, Finset.sum_range_succ,
    List.getElem?_concat_length, List.take_left, Option.elim_some]
  refine congrArg (· + _) (Finset.sum_congr rfl fun i hi => ?_)
  have hi : i < commands.length := Finset.mem_range.1 hi
  rw [List.getElem?_append_left hi, List.take_append_of_le_length hi.le]

end Command

/-! ## What the commands say -/

open Command

/-- Where something is after some commands, from where and how it started. -/
structure Tracks (start : Point ℚ) (velocity : Vec ℚ) (bounds : Rectangle ℚ)
    (commands : List (Command ℚ)) (m : Motion ℚ) : Prop where
  /-- The bounds stay. -/
  bounds_eq : m.bounds = bounds
  /-- The velocity is the one set last. -/
  velocity_eq : m.velocity = heading velocity commands
  /-- Moving is allowed if it was so last. -/
  mobile_eq : m.mobile = allowed commands
  /-- The last update is the latest instant. -/
  lastUpdate_eq : m.lastUpdate = latest commands
  /-- The bounds are not left. -/
  inside : bounds.contains m.position = true
  /-- Along the first axis whole extents are taken away. -/
  alongX : m.position.x ≡ start.x + travel Vec.x velocity commands [PMOD bounds.width]
  /-- Along the second axis whole extents are taken away. -/
  alongY : m.position.y ≡ start.y + travel Vec.y velocity commands [PMOD bounds.height]

section Steps

variable {start : Point ℚ} {velocity : Vec ℚ} {bounds : Rectangle ℚ} {commands : List (Command ℚ)}
  {m : Motion ℚ}

theorem contains_wrapped (hwidth : 0 < m.bounds.width) (hheight : 0 < m.bounds.height) :
    m.bounds.contains m.wrapped.position = true :=
  Rectangle.contains_iff.2 ⟨wrapAxis_mem_Icc hwidth _ _, wrapAxis_mem_Icc hheight _ _⟩

theorem tracks_moving (hwidth : 0 < bounds.width) (hheight : 0 < bounds.height) (start : Point ℚ)
    (velocity : Vec ℚ) : Tracks start velocity bounds [] (moving start velocity bounds) where
  bounds_eq := rfl
  velocity_eq := rfl
  mobile_eq := rfl
  lastUpdate_eq := rfl
  inside := contains_wrapped (m := ⟨start, velocity, bounds, true, 0⟩) hwidth hheight
  alongX := by
    rw [show travel Vec.x velocity [] = 0 from rfl, add_zero]
    exact wrapAxis_modEq hwidth _ _
  alongY := by
    rw [show travel Vec.y velocity [] = 0 from rfl, add_zero]
    exact wrapAxis_modEq hheight _ _

/-- An advance moves by the velocity for the time since the last update and wraps, if moving is
allowed, and else leaves the position as it is. -/
theorem advance_position (m : Motion ℚ) (now : Time) :
    (m.advance now).position =
      if m.mobile = true ∧ m.lastUpdate < now then
        (wrapped { m with
          position := m.position.displaced m.velocity (now - m.lastUpdate : ℕ) }).position
      else m.position := by
  unfold advance
  simp only [Time.elapsed_eq, Nat.sub_pos_iff_lt]
  split_ifs <;> rfl

theorem contains_after (hwidth : 0 < m.bounds.width) (hheight : 0 < m.bounds.height)
    (hinside : m.bounds.contains m.position = true) (c : Command ℚ) :
    m.bounds.contains (m.after c).position = true := by
  cases c with
  | advance now =>
    show m.bounds.contains (m.advance now).position = true
    rw [advance_position]
    split_ifs
    · exact contains_wrapped (m := { m with position := _ }) hwidth hheight
    · exact hinside
  | setDirection v => exact hinside
  | setMobile mobile => exact hinside

/-- On each axis a command leads as far as its stride, up to whole extents. -/
theorem after_modEq (hwidth : 0 < m.bounds.width) (hheight : 0 < m.bounds.height) (c : Command ℚ) :
    (m.after c).position.x ≡
        m.position.x + stride Vec.x m.mobile m.velocity m.lastUpdate c [PMOD m.bounds.width] ∧
      (m.after c).position.y ≡
        m.position.y + stride Vec.y m.mobile m.velocity m.lastUpdate c [PMOD m.bounds.height] := by
  have hstill : m.position.x ≡ m.position.x + 0 [PMOD m.bounds.width] ∧
      m.position.y ≡ m.position.y + 0 [PMOD m.bounds.height] := by
    rw [add_zero, add_zero]
    exact ⟨modEq_rfl, modEq_rfl⟩
  cases c with
  | advance now =>
    have hstride : ∀ axis, stride axis m.mobile m.velocity m.lastUpdate (.advance now) =
        if m.mobile then axis m.velocity * (now - m.lastUpdate : ℕ) else 0 := fun _ => rfl
    rw [hstride, hstride, show m.after (.advance now) = m.advance now from rfl, advance_position]
    by_cases hmobile : m.mobile = true
    · rw [if_pos hmobile, if_pos hmobile]
      by_cases hlater : m.lastUpdate < now
      · rw [if_pos ⟨hmobile, hlater⟩]
        exact ⟨wrapAxis_modEq hwidth _ _, wrapAxis_modEq hheight _ _⟩
      · rw [if_neg fun h => hlater h.2, Nat.sub_eq_zero_of_le (not_lt.1 hlater), Nat.cast_zero,
          mul_zero, mul_zero]
        exact hstill
    · rw [if_neg fun h => hmobile h.1, if_neg hmobile, if_neg hmobile]
      exact hstill
  | setDirection v => exact hstill
  | setMobile mobile => exact hstill

/-- All but the position is as the commands say. -/
theorem after_keeps (m : Motion ℚ) (c : Command ℚ) :
    (m.after c).bounds = m.bounds ∧ (m.after c).velocity = (direction? c).getD m.velocity ∧
      (m.after c).mobile = (mobility? c).getD m.mobile ∧
      (m.after c).lastUpdate = max m.lastUpdate ((instant? c).getD 0) := by
  cases c with
  | advance now =>
    unfold Motion.after advance
    simp only
    split_ifs <;> exact ⟨rfl, rfl, rfl, rfl⟩
  | setDirection v => exact ⟨rfl, rfl, rfl, (max_eq_left (Nat.zero_le _)).symm⟩
  | setMobile mobile => exact ⟨rfl, rfl, rfl, (max_eq_left (Nat.zero_le _)).symm⟩

/-- What the commands say stays right with one more of them. -/
theorem Tracks.after (h : Tracks start velocity bounds commands m) (hwidth : 0 < bounds.width)
    (hheight : 0 < bounds.height) (c : Command ℚ) :
    Tracks start velocity bounds (commands ++ [c]) (m.after c) := by
  obtain ⟨rfl, hvelocity, hmobile, hlast, hinside, hx, hy⟩ := h
  obtain ⟨hbounds, hheading, hallowed, hlatest⟩ := after_keeps m c
  obtain ⟨hstepx, hstepy⟩ := after_modEq hwidth hheight c
  rw [hmobile, hvelocity, hlast] at hstepx hstepy
  refine
    { bounds_eq := hbounds
      velocity_eq := ?velocity
      mobile_eq := ?mobile
      lastUpdate_eq := ?lastUpdate
      inside := contains_after hwidth hheight hinside c
      alongX := ?alongX
      alongY := ?alongY }
  case velocity => rw [hheading, hvelocity, heading_concat]
  case mobile => rw [hallowed, hmobile, allowed_concat]
  case lastUpdate => rw [hlatest, hlast, latest_concat]
  case alongX =>
    rw [travel_concat, ← add_assoc]
    exact hstepx.trans (hx.add_right _)
  case alongY =>
    rw [travel_concat, ← add_assoc]
    exact hstepy.trans (hy.add_right _)

/-- What the commands say is right after all of them. -/
theorem tracks_foldl (hwidth : 0 < bounds.width) (hheight : 0 < bounds.height) (start : Point ℚ)
    (velocity : Vec ℚ) (commands : List (Command ℚ)) :
    Tracks start velocity bounds commands
      (commands.foldl Motion.after (moving start velocity bounds)) := by
  induction commands using List.reverseRecOn with
  | nil => exact tracks_moving hwidth hheight start velocity
  | append_singleton commands c ih =>
    rw [List.foldl_append]
    exact ih.after hwidth hheight c

end Steps

/-- After any commands, something that has started to move in a rectangle lies in it, was last
updated at the latest instant named so far, and on each axis is where its start and its travel lead,
up to whole extents. -/
theorem wraps_around (start : Point ℚ) (velocity : Vec ℚ) (x y width height : ℚ)
    (commands : List (Command ℚ)) :
    let bounds := Rectangle.sized x y width height
    let m := commands.foldl after (moving start velocity bounds)
    bounds.contains m.position = true ∧
      IsGreatest {t | t = 0 ∨ .advance t ∈ commands} m.lastUpdate ∧
      m.position.x ≡ start.x + travel Vec.x velocity commands [PMOD bounds.width] ∧
      m.position.y ≡ start.y + travel Vec.y velocity commands [PMOD bounds.height] := by
  intro bounds m
  have h : Tracks start velocity bounds commands m :=
    tracks_foldl (Rectangle.positiveExtent_pos width) (Rectangle.positiveExtent_pos height) start
      velocity commands
  refine ⟨h.inside, ?_, h.alongX, h.alongY⟩
  rw [h.lastUpdate_eq]
  exact isGreatest_latest commands

-- Going back in time and standing still lead nowhere, so the first advance alone wraps once.
example : (List.foldl after (moving ⟨9, 5⟩ ⟨3, 0⟩ (.sized 0 0 10 10))
    [.advance 4, .advance 2, .setMobile false, .advance 9] : Motion ℚ).position = ⟨1, 5⟩ := by
  decide +kernel

end Motion

end FogNet
