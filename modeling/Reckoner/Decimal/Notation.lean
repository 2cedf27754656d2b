/-
The two ways of writing a decimal: with all its places, or with a power of ten.

Both start from the figures of the decimal, its digits from the first to the last that is not a
zero, and from the power of ten of the first one. What is written is then a choice of where the
point goes and how many zeros fill the places that the figures do not reach.
-/
import Reckoner.Decimal.Basic

set_option autoImplicit false

namespace Reckoner

/-- Digits of a number, with the power of ten of the first: the figures `d₁ d₂ … dₙ` with leading
power `e` stand for `d₁.d₂…dₙ · 10^e`. -/
structure Figures where
  digits : List Char
  power : Int
  deriving DecidableEq, Repr

namespace Figures

/-- All digits of a decimal. -/
def ofDecimal (d : Decimal) : Figures :=
  let digits := Nat.toDigits 10 d.significand
  ⟨digits, d.exponent + digits.length - 1⟩

/-- Without the zeros at the end, which change nothing of the value. -/
def trimmed (f : Figures) : Figures :=
  { f with digits := (f.digits.reverse.dropWhile (· == '0')).reverse }

/-- The first `n` figures. -/
def take (n : Nat) (f : Figures) : Figures :=
  { f with digits := f.digits.take n }

/-- Every place written out, and a point only if there are places behind it. -/
def positional (f : Figures) : List Char :=
  if f.power < 0 then
    '0' :: '.' :: (List.replicate (-f.power - 1).toNat '0' ++ f.digits)
  else
    let whole := f.power.toNat + 1
    let filled := f.digits.take whole ++ List.replicate (whole - f.digits.length) '0'
    match f.digits.drop whole with
    | [] => filled
    | behind => filled ++ '.' :: behind

/-- One figure before the point and the others behind it, then the power of ten with its sign. -/
def scientific (f : Figures) : List Char :=
  let mantissa := match f.digits with
    | [] => []
    | [d] => [d]
    | d :: behind => d :: '.' :: behind
  mantissa ++ 'e' :: (if f.power < 0 then '-' else '+') :: Nat.toDigits 10 f.power.natAbs

end Figures
end Reckoner
