/-
The numbers that integration and differentiation compute with.

The two methods are formulas over any numbers that can be added, multiplied, divided and compared.
The calculator runs them on floats; over the rationals the same formulas have no rounding, which is
where it can be said what they compute.
-/

set_option autoImplicit false

namespace Reckoner

/-- What the formulas need of their numbers besides the four operations and the sign. -/
class Scalar (α : Type) where
  /-- The number with this value. -/
  ofNat : Nat → α
  /-- The magnitude of a number. -/
  abs : α → α
  /-- Whether a number is at most another. Nothing is at most, or at least, a NaN. -/
  atMost : α → α → Bool

/-- Floats, with which the calculator computes. -/
instance : Scalar Float where
  ofNat := Float.ofNat
  abs := Float.abs
  atMost x y := decide (x ≤ y)

/-- Rationals, over which the formulas say what they compute. -/
instance : Scalar Rat where
  ofNat n := mkRat n 1
  abs := Rat.abs
  atMost x y := decide (x ≤ y)

end Reckoner
