/-
Blanks, comments, strings and keys of a TOML document.

A reading takes what it reads off the front of the text and returns the rest; it has no value if
the text does not start with such a thing. Loops that take something at each round are bounded by
the length of the text.
-/
import Reckoner.Toml.Item

set_option autoImplicit false

namespace Reckoner
namespace Toml

/-- A reading of something at the front of a text. -/
abbrev Reading (α : Type) := List Char → Option (α × List Char)

/-! ## Blanks and lines -/

/-- Blanks within a line. -/
def isSpace (c : Char) : Bool :=
  c == ' ' || c == '\t'

/-- The text without blanks in front. -/
def skipSpaces (cs : List Char) : List Char :=
  cs.dropWhile isSpace

/-- What may stand in a comment, and between any quotes: all characters but the controls. -/
def isPlain (c : Char) : Bool :=
  c == '\t' || (32 ≤ c.toNat && c.toNat != 127)

/-- The end of a line, of either kind. -/
def newline? : List Char → Option (List Char)
  | '\n' :: cs => some cs
  | '\r' :: '\n' :: cs => some cs
  | _ => none

/-- The text without a comment in front. -/
def skipComment : List Char → List Char
  | '#' :: cs => cs.dropWhile isPlain
  | cs => cs

/-- What has to follow on the line of a statement: blanks, perhaps a comment, and the end of the
line or of the text. -/
def lineEnd? (cs : List Char) : Option (List Char) :=
  match skipComment (skipSpaces cs) with
  | [] => some []
  | rest => newline? rest

/-- The text without blanks and ends of lines in front. -/
def skipLines : Nat → List Char → List Char
  | 0, cs => cs
  | fuel + 1, cs =>
    match newline? (skipSpaces cs) with
    | some rest => skipLines fuel rest
    | none => skipSpaces cs

/-- The text without blanks, ends of lines and comments in front. -/
def skipFiller : Nat → List Char → List Char
  | 0, cs => cs
  | fuel + 1, cs =>
    match newline? (skipComment (skipSpaces cs)) with
    | some rest => skipFiller fuel rest
    | none => skipComment (skipSpaces cs)

/-! ## Strings -/

/-- Whether a character is a hexadecimal digit. -/
def isHexDigit (c : Char) : Bool :=
  c.isDigit || ('a' ≤ c && c ≤ 'f') || ('A' ≤ c && c ≤ 'F')

/-- The number that digits of a base up to 16 write. -/
def natOfBase (base : Nat) (digits : List Char) : Nat :=
  digits.foldl (fun n d =>
    base * n + (if d.isDigit then d.toNat - '0'.toNat else d.toLower.toNat - 'a'.toNat + 10)) 0

/-- A character given by `n` hexadecimal digits of its number. -/
def codePoint? (n : Nat) : Reading Char := fun cs =>
  let digits := cs.take n
  let code := natOfBase 16 digits
  if digits.length = n ∧ digits.all isHexDigit ∧ code.isValidChar then
    some (Char.ofNat code, cs.drop n)
  else none

/-- What a backslash and the text behind it stand for. -/
def escaped? : Reading Char
  | 'b' :: cs => some ('\x08', cs)
  | 't' :: cs => some ('\t', cs)
  | 'n' :: cs => some ('\n', cs)
  | 'f' :: cs => some ('\x0c', cs)
  | 'r' :: cs => some ('\r', cs)
  | '"' :: cs => some ('"', cs)
  | '\\' :: cs => some ('\\', cs)
  | 'u' :: cs => codePoint? 4 cs
  | 'U' :: cs => codePoint? 8 cs
  | _ => none

/-- The rest of a string in double quotes, on one line. -/
def basicRest? : Nat → Reading (List Char)
  | 0, _ => none
  | _ + 1, [] => none
  | fuel + 1, c :: cs =>
    if c = '"' then some ([], cs)
    else if c = '\\' then do
      let (x, cs) ← escaped? cs
      let (xs, cs) ← basicRest? fuel cs
      some (x :: xs, cs)
    else if isPlain c then do
      let (xs, cs) ← basicRest? fuel cs
      some (c :: xs, cs)
    else none

/-- The rest of a string in single quotes, on one line. -/
def literalRest? (cs : List Char) : Option (List Char × List Char) :=
  match cs.dropWhile fun c => isPlain c && c != '\'' with
  | '\'' :: rest => some (cs.takeWhile fun c => isPlain c && c != '\'', rest)
  | _ => none

/-- The end of a string in triple quotes: three of them, and up to two more in front that belong
to the string. Fewer than three close nothing. -/
def closingQuotes? (quote : Char) (cs : List Char) : Option (List Char × List Char) :=
  let run := (cs.takeWhile (· == quote)).length
  if run < 3 then none
  else
    let own := min (run - 3) 2
    some (List.replicate own quote, cs.drop (own + 3))

/-- The rest of a string in triple double quotes. A backslash at the end of a line takes away the
blanks and ends of lines behind it. -/
def longBasicRest? : Nat → Reading (List Char)
  | 0, _ => none
  | _ + 1, [] => none
  | fuel + 1, c :: cs =>
    match closingQuotes? '"' (c :: cs) with
    | some result => some result
    | none =>
      if c = '\\' then
        match newline? (skipSpaces cs) with
        | some rest => longBasicRest? fuel (skipLines rest.length rest)
        | none => do
          let (x, cs) ← escaped? cs
          let (xs, cs) ← longBasicRest? fuel cs
          some (x :: xs, cs)
      else
        match newline? (c :: cs) with
        | some rest => do
          let (xs, cs) ← longBasicRest? fuel rest
          some ('\n' :: xs, cs)
        | none =>
          if isPlain c then do
            let (xs, cs) ← longBasicRest? fuel cs
            some (c :: xs, cs)
          else none

/-- The rest of a string in triple single quotes. -/
def longLiteralRest? : Nat → Reading (List Char)
  | 0, _ => none
  | _ + 1, [] => none
  | fuel + 1, c :: cs =>
    match closingQuotes? '\'' (c :: cs) with
    | some result => some result
    | none =>
      match newline? (c :: cs) with
      | some rest => do
        let (xs, cs) ← longLiteralRest? fuel rest
        some ('\n' :: xs, cs)
      | none =>
        if isPlain c then do
          let (xs, cs) ← longLiteralRest? fuel cs
          some (c :: xs, cs)
        else none

/-- The text without the end of a line right at its front. -/
def dropNewline (cs : List Char) : List Char :=
  (newline? cs).getD cs

/-- A string on one line. -/
def shortString? : Reading (List Char)
  | '"' :: cs => basicRest? (cs.length + 1) cs
  | '\'' :: cs => literalRest? cs
  | _ => none

/-- A string of any of the four kinds. -/
def string? : Reading (List Char)
  | '"' :: '"' :: '"' :: cs => longBasicRest? (cs.length + 1) (dropNewline cs)
  | '\'' :: '\'' :: '\'' :: cs => longLiteralRest? (cs.length + 1) (dropNewline cs)
  | cs => shortString? cs

/-! ## Keys -/

/-- What a key without quotes is made of. -/
def isKeyChar (c : Char) : Bool :=
  c.isAlphanum || c == '_' || c == '-'

/-- A key without points. -/
def simpleKey? (cs : List Char) : Option (List Char × List Char) :=
  match cs with
  | '"' :: _ => shortString? cs
  | '\'' :: _ => shortString? cs
  | _ =>
    if cs.takeWhile isKeyChar = [] then none
    else some (cs.takeWhile isKeyChar, cs.dropWhile isKeyChar)

/-- Keys with points between them and blanks around each. -/
def keys? : Nat → Reading (List String)
  | 0, _ => none
  | fuel + 1, cs => do
    let (key, cs) ← simpleKey? (skipSpaces cs)
    match skipSpaces cs with
    | '.' :: rest => do
      let (keys, cs) ← keys? fuel rest
      some (String.ofList key :: keys, cs)
    | rest => some ([String.ofList key], rest)

/-- The greatest number of things that are one inside the other, keys with points included. -/
def maxDepth : Nat := 79

/-- A key, as the part before its last point and the part behind it. -/
def key? (cs : List Char) : Option ((List String × String) × List Char) := do
  let (keys, cs) ← keys? (cs.length + 1) cs
  if maxDepth < keys.length then none
  else do
    let last ← keys.getLast?
    some ((keys.dropLast, last), cs)

end Toml
end Reckoner
