/-
The text of a real.

Digits are never cut: a real is written with the fewest digits that read back to the same float.
Between `10^(-7)` and `10^21` all places are written out, elsewhere a power of ten is. Zero has no
sign in this text, and the special values have the words `NaN`, `Infinity` and `-Infinity`.

Before a result is shown it is rounded to 16 significant digits, one fewer than telling every
float apart may need; that is what turns `0.1 + 0.2` back into `0.3`. Very small and very large
results are left alone.
-/
import Reckoner.Binary64
import Reckoner.Decimal.Shortest
import Reckoner.Decimal.Notation

set_option autoImplicit false

namespace Reckoner

/-- The figures of a positive float `m · 2^q`, as few as read back to it. -/
def shortestFigures (m : Nat) (q : Int) : Figures :=
  (Figures.ofDecimal (Decimal.shortest m q)).trimmed

/-- The minus sign of a negative number. -/
def signText (negative : Bool) : List Char :=
  if negative then ['-'] else []

/-! ## Texts -/

/-- The text of a real. -/
def realText (x : Float) : String :=
  match Binary64.ofFloat x with
  | .nan => "NaN"
  | .infinite negative => if negative then "-Infinity" else "Infinity"
  | .finite negative m q =>
    if m = 0 then "0"
    else
      let figures := shortestFigures m q
      String.ofList <| signText negative ++
        if -7 ≤ figures.power ∧ figures.power ≤ 20 then figures.positional
        else figures.scientific

/-- The text of a real with all places written out, whatever its size. -/
def plainText (x : Float) : String :=
  match Binary64.ofFloat x with
  | .nan => "NaN"
  | .infinite negative => if negative then "-inf" else "inf"
  | .finite negative m q =>
    String.ofList <| signText negative ++
      if m = 0 then ['0'] else (shortestFigures m q).positional

/-- The text of a real with one digit before the point and five behind it. -/
def scientificText (x : Float) : String :=
  match Binary64.ofFloat x with
  | .nan => "NaN"
  | .infinite negative => if negative then "-inf" else "inf"
  | .finite negative m q =>
    String.ofList <| signText negative ++
      if m = 0 then "0.00000e+0".toList
      else ((Figures.ofDecimal (Decimal.rounded 6 (dyadic m q))).take 6).scientific

/-! ## Rounding a result -/

/-- The float nearest to `x` rounded to 16 significant digits, for `x` between `10^(-9)` and
`10^15` in magnitude. Any other `x` is returned as it is. -/
def roundResult (x : Float) : Float :=
  if 1e-9 < x.abs ∧ x.abs < 1e15 then
    match Binary64.ofFloat x with
    | .finite negative m q =>
      let y := (Decimal.rounded 16 (dyadic m q)).toFloat
      if negative then -y else y
    | _ => x
  else x

end Reckoner
