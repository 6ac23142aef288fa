import FogNet.Plane.Remainder

/-!
# Coordinates

The geometry is written once for every type of coordinates. A simulation runs over doubles; the
rational numbers (`Plane.Rational`) give the same definitions without rounding, which is where exact
statements about coverage and wrapped motion live. The class asks for no law: what holds of every
instance holds of doubles as they are.
-/

namespace FogNet

/-- Numbers that can serve as coordinates. -/
class Coordinate (α : Type) extends Zero α, One α, Add α, Sub α, Mul α, Div α, LT α, LE α where
  /-- Strict comparison is decidable. -/
  decLt : DecidableRel (fun a b : α => a < b)
  /-- Weak comparison is decidable. -/
  decLe : DecidableRel (fun a b : α => a ≤ b)
  /-- The non-negative remainder by a modulus. -/
  remainder : α → α → α
  /-- A number of ticks as a coordinate. -/
  ofTicks : Nat → α
  /-- The least of some coordinates. -/
  least : List α → α
  /-- The greatest of some coordinates. -/
  greatest : List α → α

namespace Coordinate

variable {α : Type} [Coordinate α]

instance (a b : α) : Decidable (a < b) := decLt a b

instance (a b : α) : Decidable (a ≤ b) := decLe a b

end Coordinate

/-- The smaller of two numbers, the second of equal ones; a second one that does not compare is
passed over. -/
def lesser {α : Type} [LE α] [DecidableLE α] (a b : α) : α :=
  if b ≤ a then b else a

/-- The larger of two numbers, the second of equal ones; a second one that does not compare is
passed over. -/
def larger {α : Type} [LE α] [DecidableLE α] (a b : α) : α :=
  if a ≤ b then b else a

/-- Doubles with their rounded arithmetic; the extremes pass over NaN and start at infinity. -/
instance : Coordinate Float where
  decLt := Float.decLt
  decLe := Float.decLe
  remainder := euclideanRemainder
  ofTicks n := Float.ofNat n
  least l := l.foldl lesser (1 / 0)
  greatest l := l.foldl larger (-1 / 0)

end FogNet
