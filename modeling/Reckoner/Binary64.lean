/-
The exact content of a machine float.

A `Float` is a bit pattern; a `Binary64` says which number the pattern stands for, as a
natural significand times a power of two. Every exact question about floats (which decimals
read back to it, is it an integer, what does division leave over) is asked of the content,
in whole-number arithmetic, and never of rounded float operations.

The two directions are `Binary64.ofFloat`, which loses nothing but the payload of a NaN, and
`Binary64.toFloat`, which is exact on content that some float has and truncates below the
smallest bit of any other. The remainder is the one operation that needs the way back: it is
a multiple of the last place of one operand and smaller than the other, so it always fits.
-/

set_option autoImplicit false

namespace Reckoner

/-- What a 64-bit float stands for: `finite negative m q` is `±m · 2^q`. -/
inductive Binary64 where
  | nan
  | infinite (negative : Bool)
  | finite (negative : Bool) (significand : Nat) (exponent : Int)
  deriving DecidableEq, Repr

/-- The number `m · 2^q`. -/
def dyadic (m : Nat) (q : Int) : Rat :=
  if 0 ≤ q then mkRat (m <<< q.toNat : Nat) 1 else mkRat m (1 <<< (-q).toNat)

namespace Binary64

/-! ## From the bit pattern and back -/

/-- The content of a float. The exponent field 0 marks the subnormal numbers, which share the
exponent of the smallest normal ones and lack their leading bit. -/
def ofFloat (x : Float) : Binary64 :=
  let bits : Nat := x.toBits.toNat
  let negative := decide (1 <<< 63 ≤ bits)
  let field : Nat := (bits >>> 52) % 2048
  let fraction : Nat := bits % (1 <<< 52)
  if field = 2047 then
    if fraction = 0 then .infinite negative else .nan
  else if field = 0 then .finite negative fraction (-1074)
  else .finite negative ((1 <<< 52) + fraction) ((field : Int) - 1075)

/-- `m · 2^k` without its fractional part. -/
def scaled (m : Nat) (k : Int) : Nat :=
  if 0 ≤ k then m <<< k.toNat else m >>> (-k).toNat

/-- The bit pattern of `m · 2^q`, sign apart: below `2^(-1022)` the exponent field is 0 and
the last place is `2^(-1074)`, from there on the leading bit is left out. -/
def magnitudeBits (m : Nat) (q : Int) : Nat :=
  let top : Int := m.log2 + q
  if m = 0 then 0
  -- What lies below the last place of the subnormal numbers is cut off.
  else if top < -1022 then scaled m (q + 1074)
  else if 1023 < top then 2047 <<< 52
  else scaled m (52 - m.log2) - (1 <<< 52) + ((top + 1023).toNat <<< 52)

/-- The float with this content. -/
def toFloat : Binary64 → Float
  | .nan => Float.ofBits 0x7ff8000000000000
  | .infinite negative => Float.ofBits (if negative then 0xfff0000000000000 else 0x7ff0000000000000)
  | .finite negative m q =>
    Float.ofBits ((magnitudeBits m q + if negative then 1 <<< 63 else 0 : Nat).toUInt64)

/-! ## Whole numbers -/

/-- The whole number this stands for, if it stands for one. -/
def toInt? : Binary64 → Option Int
  | .nan => none
  | .infinite _ => none
  | .finite negative m q =>
    if 0 ≤ q ∨ m % (1 <<< (-q).toNat) = 0 then
      some (if negative then -(scaled m q : Int) else scaled m q)
    else none

/-! ## Remainder -/

/-- What is left of `x` after taking away the quotient `x / y` cut to a whole number, so the
sign is that of `x`. Both magnitudes are written in units of the smaller of the two last
places, where the remainder of the units is exact. A divisor that is zero leaves nothing
defined, and an infinite one leaves `x` itself. -/
def remainder : Binary64 → Binary64 → Binary64
  | .finite negative m q, .finite _ n r =>
    if n = 0 then .nan
    else
      let unit := min q r
      .finite negative (scaled m (q - unit) % scaled n (r - unit)) unit
  | .finite negative m q, .infinite _ => .finite negative m q
  | _, _ => .nan

end Binary64

/-- The remainder of a division of floats that rounds its quotient toward zero. -/
def remainderOfFloats (x y : Float) : Float :=
  ((Binary64.ofFloat x).remainder (Binary64.ofFloat y)).toFloat

end Reckoner
