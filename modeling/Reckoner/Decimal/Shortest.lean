/-
The shortest decimal that reads back to a given float.

The reals that round to a float form an interval around it; it ends half way to the two
neighbouring floats, and both ends belong to it exactly when the significand is even. A decimal
reads back to the float iff it lies in that interval. If any point of a grid does, so does one of
the two grid points next to the float, so trying those two on finer and finer grids finds the
fewest digits; seventeen are always enough.
-/
import Reckoner.Binary64
import Reckoner.Decimal.Basic

set_option autoImplicit false

namespace Reckoner

/-- The reals that round to a positive finite float. -/
structure RoundingInterval where
  low : Rat
  high : Rat
  closed : Bool

namespace RoundingInterval

/-- The interval of `m · 2^q`, counted in quarters of the last place. Just above a power of two
the float below is only half as far away as the float above, except at the very bottom, where
the subnormal numbers keep the same distance. -/
def around (m : Nat) (q : Int) : RoundingInterval where
  low := dyadic (if m = 1 <<< 52 ∧ -1074 < q then 4 * m - 1 else 4 * m - 2) (q - 2)
  high := dyadic (4 * m + 2) (q - 2)
  closed := m % 2 = 0

/-- Whether a decimal lies in the interval. -/
def holds (i : RoundingInterval) (d : Decimal) : Bool :=
  let x := d.toRat
  if i.closed then decide (i.low ≤ x ∧ x ≤ i.high) else decide (i.low < x ∧ x < i.high)

/-- The decimal of the interval nearest to `x` among the two neighbours of `x` on the grid of
multiples of `10^k`. Of two equally near ones it is the upper. -/
def nearestOn? (i : RoundingInterval) (x : Rat) (k : Int) : Option Decimal :=
  let low := Decimal.floorOn k x
  match i.holds low, i.holds low.next with
  | true, true => some (if x - low.toRat < low.next.toRat - x then low else low.next)
  | true, false => some low
  | false, true => some low.next
  | false, false => none

end RoundingInterval

/-- The decimal of fewest digits that reads back to the float `m · 2^q`, for `0 < m`. -/
def Decimal.shortest (m : Nat) (q : Int) : Decimal :=
  let x := dyadic m q
  let top := Decimal.order x
  let found := (List.range 17).findSome? fun (n : Nat) =>
    (RoundingInterval.around m q).nearestOn? x (top - (n : Int))
  -- Some grid of at most seventeen digits always has a hit, so this default is never taken.
  found.getD (Decimal.floorOn (top - 16) x)

end Reckoner
