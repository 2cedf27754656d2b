/-
The operators on values.

Addition, subtraction, multiplication and remainder of whole numbers are exact and give whole
numbers. A quotient is always real. A power of whole numbers is exact when the exponent is not
negative and the result is not too long to be worth having, and real otherwise. One real operand
makes everything real.
-/
import Reckoner.Error
import Reckoner.Value.Basic

set_option autoImplicit false

namespace Reckoner

/-! ## Reals -/

/-- An operator on reals. A divisor of zero, of either sign, is refused; all else follows the
rules of floats, so a result may be infinite or not a number. -/
def BinaryOp.onReals (op : BinaryOp) (x y : Float) : Except EvalError Float :=
  match op with
  | .add => .ok (x + y)
  | .sub => .ok (x - y)
  | .mul => .ok (x * y)
  | .div => if y == 0 then .error .divisionByZero else .ok (x / y)
  | .rem => if y == 0 then .error .divisionByZero else .ok (remainderOfFloats x y)
  | .pow => .ok (Float.pow x y)

/-! ## Powers of whole numbers -/

/-- The greatest length of an exact power, in bits. -/
def maxPowerBits : Nat := 4194304

/-- The number of binary digits of the magnitude. -/
def bitLength (n : Int) : Nat :=
  if n = 0 then 0 else n.natAbs.log2 + 1

/-- Whether `x ^ n` is computed exactly. The powers of 0, 1 and -1 never grow; otherwise the
exponent has to fit 32 bits, and the length of `x` times the exponent, which bounds the length of
the power, has to stay within `maxPowerBits`. -/
def powerIsExact (x : Int) (n : Nat) : Bool :=
  x.natAbs ≤ 1 || (n < 4294967296 && bitLength x * n ≤ maxPowerBits)

/-- A power of whole numbers with an exponent that is not negative. The powers of -1 are told
apart by parity, so that no exponent is too large for them. -/
def wholePower (x : Int) (n : Nat) : Value :=
  if x = 0 then .whole (if n = 0 then 1 else 0)
  else if x = 1 then .whole 1
  else if x = -1 then .whole (if n % 2 = 0 then 1 else -1)
  else if powerIsExact x n then .whole (Int.pow x n)
  else .real (Float.pow (Float.ofInt x) (Float.ofNat n))

/-! ## Values -/

/-- An operator on whole numbers. The remainder has the sign of the dividend. -/
def BinaryOp.onWholes (op : BinaryOp) (x y : Int) : Except EvalError Value :=
  match op with
  | .add => .ok (.whole (x + y))
  | .sub => .ok (.whole (x - y))
  | .mul => .ok (.whole (x * y))
  | .rem => if y = 0 then .error .divisionByZero else .ok (.whole (x.tmod y))
  | .div => (BinaryOp.onReals .div (Float.ofInt x) (Float.ofInt y)).map .real
  | .pow =>
    if y < 0 then (BinaryOp.onReals .pow (Float.ofInt x) (Float.ofInt y)).map .real
    else .ok (wholePower x y.toNat)

/-- An operator on values: exact on whole numbers as far as `onWholes` is, real as soon as one
operand is. -/
def BinaryOp.apply (op : BinaryOp) (a b : Value) : Except EvalError Value :=
  match a, b with
  | .whole x, .whole y => op.onWholes x y
  | a, b => (op.onReals a.toFloat b.toFloat).map .real

/-- A sign on a value. -/
def UnaryOp.apply (op : UnaryOp) (a : Value) : Value :=
  match op with
  | .negate => a.neg
  | .keep => a

end Reckoner
