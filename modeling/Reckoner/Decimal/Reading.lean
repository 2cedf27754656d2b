/-
Numbers read from text.

Two kinds of text are read here: whole numbers of any length, and reals. A real is a decimal with
an optional point and an optional power of ten, or one of the words for infinity and not-a-number;
its float is the one nearest to the exact decimal. Neither reading skips blanks, and neither
accepts text after the number.
-/
import Reckoner.Decimal.Basic

set_option autoImplicit false

namespace Reckoner

/-- The number that decimal digits write. -/
def natOfDigits (digits : List Char) : Nat :=
  digits.foldl (fun n d => 10 * n + (d.toNat - '0'.toNat)) 0

/-! ## Whole numbers -/

/-- Digits, of which the first must be there; underscores may stand anywhere behind it. -/
def natOfText? (text : List Char) : Option Nat :=
  match text with
  | [] => none
  | d :: rest =>
    if d.isDigit && rest.all (fun c => c.isDigit || c == '_') then
      some (natOfDigits (d :: rest.filter (· != '_')))
    else none

/-- A whole number with at most one sign in front. -/
def intOfText? (text : List Char) : Option Int :=
  match text with
  | '-' :: rest => (natOfText? rest).map fun n => -(n : Int)
  | '+' :: rest => (natOfText? rest).map fun n => (n : Int)
  | _ => (natOfText? text).map fun n => (n : Int)

/-! ## Reals -/

namespace Decimal

/-- The power of ten that a text names: none at all, or the letter `e`, at most one sign, and at
least one digit. -/
def powerOfText? (text : List Char) : Option Int :=
  match text with
  | [] => some 0
  | e :: rest =>
    if e = 'e' ∨ e = 'E' then
      let (negative, digits) := match rest with
        | '-' :: digits => (true, digits)
        | '+' :: digits => (false, digits)
        | digits => (false, digits)
      if digits.isEmpty || !digits.all Char.isDigit then none
      else some (if negative then -(natOfDigits digits : Int) else natOfDigits digits)
    else none

/-- An unsigned decimal: digits before or behind a point, at least one in all, and then perhaps a
power of ten. Every digit behind the point takes one off the power. -/
def ofText? (text : List Char) : Option Decimal :=
  let whole := text.takeWhile Char.isDigit
  let (places, power) := match text.dropWhile Char.isDigit with
    | '.' :: rest => (rest.takeWhile Char.isDigit, rest.dropWhile Char.isDigit)
    | rest => ([], rest)
  if whole.isEmpty && places.isEmpty then none
  else (powerOfText? power).map fun p => ⟨natOfDigits (whole ++ places), p - places.length⟩

end Decimal

/-- An unsigned real. The words may be written in capitals. -/
def unsignedRealOfText? (text : List Char) : Option Float :=
  let word := text.map Char.toLower
  if word = "inf".toList ∨ word = "infinity".toList then
    some (Float.ofBits 0x7ff0000000000000)
  else if word = "nan".toList then some (Float.ofBits 0x7ff8000000000000)
  else (Decimal.ofText? text).map Decimal.toFloat

/-- A real with at most one sign in front. -/
def realOfText? (text : List Char) : Option Float :=
  match text with
  | '-' :: rest => (unsignedRealOfText? rest).map fun x => -x
  | '+' :: rest => unsignedRealOfText? rest
  | _ => unsignedRealOfText? text

end Reckoner
