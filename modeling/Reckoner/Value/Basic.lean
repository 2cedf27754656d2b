/-
Values: whole numbers without bound, and reals.

The two kinds never mix by accident. A numeral without a point or a power of ten is whole, every
other numeral is real, and a whole number becomes real only where an operation asks for it. The
float of a whole number is the nearest one, so large numbers are rounded and enormous ones become
infinite.
-/
import Reckoner.Decimal.Reading
import Reckoner.RealText

set_option autoImplicit false

namespace Reckoner

/-- What an expression can be worth. -/
inductive Value where
  | whole (n : Int)
  | real (x : Float)
  deriving DecidableEq, Repr

namespace Value

/-- Whether this is a whole number. A real stays real even where it happens to be integral. -/
def isWhole : Value → Bool
  | .whole _ => true
  | .real _ => false

/-- Whether this is the real that is not a number. -/
def isNaN : Value → Bool
  | .whole _ => false
  | .real x => x.isNaN

/-- The float of a value. -/
def toFloat : Value → Float
  | .whole n => Float.ofInt n
  | .real x => x

/-- The opposite value, of the same kind. -/
def neg : Value → Value
  | .whole n => .whole (-n)
  | .real x => .real (-x)

/-! ## Text -/

/-- The value that the text of a numeral writes, if it writes one. A point or the letter of a
power of ten makes it real. -/
def ofNumeral? (text : String) : Option Value :=
  let cs := text.toList
  if cs.any (fun c => c == '.' || c == 'e' || c == 'E') then (realOfText? cs).map .real
  else (intOfText? cs).map .whole

/-- The text of a value. -/
def text : Value → String
  | .whole n => toString n
  | .real x => realText x

/-- The text of a value as a result, which is the text that becomes the next input: reals are
rounded first. -/
def resultText : Value → String
  | .whole n => toString n
  | .real x => realText (roundResult x)

end Value
end Reckoner
