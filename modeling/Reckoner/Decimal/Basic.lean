/-
Decimals: a natural significand times a power of ten, and the grid they lie on.

A decimal with exponent `k` is a point of the grid of multiples of `10^k`. Finding the decimal
text of a number means choosing a grid and then one of the number's two neighbours on it; the
modules beside this one differ only in how they choose. All comparisons are made in `Rat`, so
nothing here rounds.
-/

set_option autoImplicit false

namespace Reckoner

/-- The number `significand · 10^exponent`. -/
structure Decimal where
  significand : Nat
  exponent : Int
  deriving DecidableEq, Repr

namespace Decimal

/-- The number a decimal stands for. -/
def toRat (d : Decimal) : Rat :=
  if 0 ≤ d.exponent then mkRat (d.significand * Nat.pow 10 d.exponent.toNat : Nat) 1
  else mkRat d.significand (Nat.pow 10 (-d.exponent).toNat)

/-- The float nearest to a decimal, the one with an even last bit when two are equally near.
Beyond the largest float this is infinity. -/
def toFloat (d : Decimal) : Float :=
  Float.ofScientific d.significand (decide (d.exponent < 0)) d.exponent.natAbs

/-! ## Neighbours on a grid -/

/-- The greatest decimal with exponent `k` that is at most `x`, for a positive `x`. -/
def floorOn (k : Int) (x : Rat) : Decimal :=
  ⟨(x / toRat ⟨1, k⟩).floor.toNat, k⟩

/-- The next decimal on the same grid. -/
def next (d : Decimal) : Decimal :=
  { d with significand := d.significand + 1 }

/-- The power of ten that `x` starts with: `10^e ≤ x < 10^(e + 1)`. Shifting by 400 places makes
every positive float at least 1, and cutting off the fraction leaves the leading digit where it
is, so counting digits of a natural number is enough. -/
def order (x : Rat) : Int :=
  ((Nat.toDigits 10 (floorOn (-400) x).significand).length : Int) - 401

/-! ## Rounding to a number of digits -/

/-- The decimal with `n` significant digits that is nearest to a positive `x`; of two equally near
ones, the one with an even last digit. When all digits are nines this carries into one more. -/
def rounded (n : Nat) (x : Rat) : Decimal :=
  let low := floorOn (order x - n + 1) x
  let toLow := x - low.toRat
  let toNext := low.next.toRat - x
  if toLow < toNext ∨ (toLow = toNext ∧ low.significand % 2 = 0) then low else low.next

end Decimal
end Reckoner
