/-
The screen: how the text of an entry or a result is shown.

A short number is shown with its thousands set off by commas. A long one is shortened to six
digits and a power of ten. A whole number is shortened by cutting off digits, without a detour
through floats, so no length is too much; a real is rounded. A text with a power of ten, and
anything that is no number, is shown as it is.
-/
import Reckoner.Decimal.Reading
import Reckoner.RealText

set_option autoImplicit false

namespace Reckoner

/-- The word that stands in for the result of a calculation that failed. -/
def failureText : String := "Error"

namespace Screen

/-- The length, in bytes, up to which a number is shown in full. -/
def fullLength : Nat := 12

/-- Whether a word stands somewhere in a text. -/
def occursIn (word : List Char) : List Char → Bool
  | [] => word.isEmpty
  | c :: cs => word.isPrefixOf (c :: cs) || occursIn word cs

/-- A minus sign in front of a text, and the rest of it. -/
def splitMinus : List Char → List Char × List Char
  | '-' :: rest => (['-'], rest)
  | cs => ([], cs)

/-- Sets off thousands: a comma stands wherever a multiple of three digits is left. -/
def groupDigits : List Char → List Char
  | [] => []
  | d :: rest =>
    if rest ≠ [] ∧ rest.length % 3 = 0 then d :: ',' :: groupDigits rest
    else d :: groupDigits rest

/-- A whole number with its thousands set off; any other text unchanged. -/
def groupThousands (cs : List Char) : List Char :=
  let (sign, digits) := splitMinus cs
  if digits ≠ [] ∧ digits.all Char.isDigit then sign ++ groupDigits digits else cs

/-- The first six digits of a whole number with two digits or more, and its power of ten. -/
def shortenWhole? (cs : List Char) : Option (List Char) :=
  let (sign, digits) := splitMinus cs
  match digits with
  | d :: e :: rest =>
    if digits.all Char.isDigit then
      some (sign ++ d :: '.' :: ((e :: rest).take 5 ++ "e+".toList ++
        Nat.toDigits 10 (digits.length - 1)))
    else none
  | _ => none

end Screen

/-- What the screen shows for a text. -/
def screenText (text : String) : String :=
  let cs := text.toList
  if Screen.occursIn failureText.toList cs || cs.contains 'e' then text
  else if Screen.fullLength < text.utf8ByteSize then
    if cs.contains '.' then
      match realOfText? cs with
      | some x => scientificText x
      | none => text
    else
      match Screen.shortenWhole? cs with
      | some short => String.ofList short
      | none => text
  else
    let whole := cs.takeWhile (· != '.')
    String.ofList (Screen.groupThousands whole ++ cs.drop whole.length)

end Reckoner
