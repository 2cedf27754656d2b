/-
Numbers, dates and times of a TOML document.

Numbers may have underscores between their digits, and no zero in front of other digits. Whole
numbers must fit 64 bits with a sign. A real too large for a float is refused, though not one that
is too small: only the positive infinity counts as an accident.

Dates are checked against the calendar. Nothing is computed from them, so they are kept as they
are written.
-/
import Reckoner.Decimal.Reading
import Reckoner.Toml.Text

set_option autoImplicit false

namespace Reckoner
namespace Toml

/-! ## Digits -/

/-- Further digits of a number, each perhaps behind an underscore. The underscores are left out. -/
def moreDigits? (isDigit : Char → Bool) : Reading (List Char)
  | [] => some ([], [])
  | '_' :: cs =>
    match cs with
    | d :: rest =>
      if isDigit d then do
        let (ds, rest) ← moreDigits? isDigit rest
        some (d :: ds, rest)
      else none
    | [] => none
  | d :: cs =>
    if isDigit d then do
      let (ds, rest) ← moreDigits? isDigit cs
      some (d :: ds, rest)
    else some ([], d :: cs)

/-- Digits of a number, at least one. -/
def digits? (isDigit : Char → Bool) : Reading (List Char)
  | [] => none
  | d :: cs =>
    if isDigit d then do
      let (ds, rest) ← moreDigits? isDigit cs
      some (d :: ds, rest)
    else none

/-- An optional sign. -/
def sign : List Char → List Char × List Char
  | '+' :: cs => (['+'], cs)
  | '-' :: cs => (['-'], cs)
  | cs => ([], cs)

/-- The digits of a whole number: a zero that stands alone, or digits that start with another. -/
def wholeDigits? : Reading (List Char)
  | '0' :: cs => some (['0'], cs)
  | cs => digits? Char.isDigit cs

/-! ## Whole numbers -/

/-- A whole number that fits 64 bits. -/
def fitting? (n : Int) : Option Int :=
  if -9223372036854775808 ≤ n ∧ n ≤ 9223372036854775807 then some n else none

/-- A whole number of a base with a letter, behind the letter. -/
def based? (base : Nat) (isDigit : Char → Bool) : Reading Item := fun cs => do
  let (ds, rest) ← digits? isDigit cs
  let n ← fitting? (natOfBase base ds)
  some (.integer n, rest)

/-- A whole number. -/
def integer? : Reading Item
  | '0' :: 'x' :: cs => based? 16 isHexDigit cs
  | '0' :: 'o' :: cs => based? 8 (fun c => '0' ≤ c && c ≤ '7') cs
  | '0' :: 'b' :: cs => based? 2 (fun c => c == '0' || c == '1') cs
  | cs => do
    let (sgn, cs) := sign cs
    let (ds, rest) ← wholeDigits? cs
    let n ← fitting? (if sgn = ['-'] then -(natOfDigits ds : Int) else natOfDigits ds)
    some (.integer n, rest)

/-! ## Reals -/

/-- The digits behind a point. -/
def places? : Reading (List Char)
  | '.' :: cs => do
    let (ds, rest) ← digits? Char.isDigit cs
    some ('.' :: ds, rest)
  | _ => none

/-- A power of ten. -/
def power? : Reading (List Char)
  | [] => none
  | e :: cs =>
    if e = 'e' ∨ e = 'E' then do
      let (sgn, cs) := sign cs
      let (ds, rest) ← digits? Char.isDigit cs
      some ('e' :: (sgn ++ ds), rest)
    else none

/-- What makes a number real: places, a power of ten, or both. -/
def placesAndPower? (cs : List Char) : Option (List Char × List Char) :=
  match cs with
  | '.' :: _ => do
    let (places, rest) ← places? cs
    match rest with
    | e :: _ =>
      if e = 'e' ∨ e = 'E' then do
        let (power, rest) ← power? rest
        some (places ++ power, rest)
      else some (places, rest)
    | [] => some (places, rest)
  | _ => power? cs

/-- One of the two words for a real that is no number of digits. -/
def realWord? (sgn : List Char) : Reading Item
  | 'i' :: 'n' :: 'f' :: cs => (realOfText? (sgn ++ "inf".toList)).map fun x => (.real x, cs)
  | 'n' :: 'a' :: 'n' :: cs => (realOfText? (sgn ++ "nan".toList)).map fun x => (.real x, cs)
  | _ => none

/-- A real. -/
def real? (cs : List Char) : Option (Item × List Char) :=
  let (sgn, unsigned) := sign cs
  match realWord? sgn unsigned with
  | some result => some result
  | none => do
    let (whole, rest) ← wholeDigits? unsigned
    let (behind, rest) ← placesAndPower? rest
    let x ← realOfText? (sgn ++ whole ++ behind)
    if x == Float.ofBits 0x7ff0000000000000 then none else some (.real x, rest)

/-! ## Dates and times -/

/-- A number of exactly `n` digits that lies between two bounds. -/
def field? (n low high : Nat) : Reading Nat := fun cs =>
  let digits := cs.take n
  let value := natOfDigits digits
  if digits.length = n ∧ digits.all Char.isDigit ∧ low ≤ value ∧ value ≤ high then
    some (value, cs.drop n)
  else none

/-- A certain character. -/
def char? (c : Char) : Reading Unit
  | [] => none
  | d :: cs => if d = c then some ((), cs) else none

/-- The days of a month. -/
def daysOfMonth (year month : Nat) : Nat :=
  if month = 2 then
    if year % 4 = 0 ∧ (year % 100 ≠ 0 ∨ year % 400 = 0) then 29 else 28
  else if month = 4 ∨ month = 6 ∨ month = 9 ∨ month = 11 then 30
  else 31

/-- A date. -/
def date? (cs : List Char) : Option (Unit × List Char) := do
  let (year, cs) ← field? 4 0 9999 cs
  let (_, cs) ← char? '-' cs
  let (month, cs) ← field? 2 1 12 cs
  let (_, cs) ← char? '-' cs
  let (_, cs) ← field? 2 1 (daysOfMonth year month) cs
  some ((), cs)

/-- A time of day; a minute may have a leap second. -/
def time? (cs : List Char) : Option (Unit × List Char) := do
  let (_, cs) ← field? 2 0 23 cs
  let (_, cs) ← char? ':' cs
  let (_, cs) ← field? 2 0 59 cs
  let (_, cs) ← char? ':' cs
  let (_, cs) ← field? 2 0 60 cs
  match cs with
  | '.' :: d :: rest => if d.isDigit then some ((), rest.dropWhile Char.isDigit) else none
  | '.' :: [] => none
  | _ => some ((), cs)

/-- A distance from universal time, or nothing. -/
def offset? (cs : List Char) : Option (Unit × List Char) :=
  match cs with
  | 'Z' :: rest => some ((), rest)
  | 'z' :: rest => some ((), rest)
  | c :: rest =>
    if c = '+' ∨ c = '-' then do
      let (_, rest) ← field? 2 0 23 rest
      let (_, rest) ← char? ':' rest
      let (_, rest) ← field? 2 0 59 rest
      some ((), rest)
    else some ((), cs)
  | [] => some ((), cs)

/-- A date, which a time may follow behind one separator. A separator that no time follows is
left where it is. -/
def dateAndTime? (cs : List Char) : Option (Unit × List Char) := do
  let (_, cs) ← date? cs
  match cs with
  | c :: rest =>
    if c = 'T' ∨ c = 't' ∨ c = ' ' then
      match time? rest with
      | some (_, rest) => offset? rest
      | none => some ((), cs)
    else some ((), cs)
  | [] => some ((), cs)

/-- A date, a time, or both. -/
def moment? (cs : List Char) : Option (Item × List Char) := do
  let (_, rest) ← (dateAndTime? cs).or (time? cs)
  some (.moment (String.ofList (cs.take (cs.length - rest.length))), rest)

/-- A date, a time, a real or a whole number. Each kind may begin like the next, so they are tried in
this order. -/
def number? (cs : List Char) : Option (Item × List Char) :=
  ((moment? cs).or (real? cs)).or (integer? cs)

end Toml
end Reckoner
