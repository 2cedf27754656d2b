/-
What is relied on of a library that keeps records in TOML.

A program that keeps a record in a file leaves the text to a library. It hands over a record and is
given a text, or hands over a text and is given a record. Here a codec is any such pair of functions,
and nothing more is known of it than the format promises of plain documents: which text stands for
fields, and which fields a text stands for.

Those documents have one line for each field, with the key, an equals sign and the value. A word stands
between double quotes. A number that is not negative is written in decimal digits, and may be read from
any such digits that do not begin with a zero in front of others. The whole numbers of the format are
signed and have 64 bits, so a greater number cannot be written.

That what was written is read again is not among the promises.
-/
import Reckoner.Decimal.Reading

set_option autoImplicit false

namespace Reckoner.Toml

/-! ## Fields -/

/-- The greatest whole number of the format. -/
def maxWhole : Nat := 9223372036854775807

/-- What a field holds: one of several cases, by its name, or a number that is not negative. -/
inductive Scalar where
  | word (text : String)
  | whole (n : Nat)
  deriving DecidableEq, Repr

/-- Whether the format has a value for it. -/
def Scalar.Fits : Scalar → Prop
  | .word _ => True
  | .whole n => n ≤ maxWhole

/-- The fields of a record under their keys, in the order of their declaration. -/
abbrev Fields := List (String × Scalar)

/-- Whether fields can be written without quoting a key or escaping a character. -/
structure Fields.Plain (fields : Fields) : Prop where
  key_ne_nil : ∀ field ∈ fields, field.1.toList ≠ []
  key_bare : ∀ field ∈ fields, ∀ c ∈ field.1.toList, c.isAlphanum = true ∨ c = '_'
  keys_nodup : (fields.map Prod.fst).Nodup
  word_bare : ∀ key text, (key, Scalar.word text) ∈ fields → ∀ c ∈ text.toList, c.isAlphanum = true

/-! ## Documents -/

/-- The line of a field, given the text of its value. -/
def fieldLine (key value : String) : String :=
  key ++ " = " ++ value ++ "\n"

/-- The text in which a value is written. -/
def Scalar.text : Scalar → String
  | .word text => "\"" ++ text ++ "\""
  | .whole n => toString n

/-- The document in which fields are written. -/
def document : Fields → String
  | [] => ""
  | (key, scalar) :: fields => fieldLine key scalar.text ++ document fields

/-- Which value a text stands for. -/
inductive Denotes : String → Scalar → Prop where
  | word (text : String) : Denotes ("\"" ++ text ++ "\"") (.word text)
  | whole {digits : List Char} (hne : digits ≠ []) (hdigits : ∀ d ∈ digits, d.isDigit = true)
    (hzero : digits.head? = some '0' → digits = ['0']) (hfits : natOfDigits digits ≤ maxWhole) :
    Denotes (String.ofList digits) (.whole (natOfDigits digits))

/-- Whether a text is a document of these fields. -/
inductive IsDocument : String → Fields → Prop where
  | nil : IsDocument "" []
  | cons (key : String) {value text : String} {scalar : Scalar} {fields : Fields}
    (hvalue : Denotes value scalar) (htext : IsDocument text fields) :
    IsDocument (fieldLine key value ++ text) ((key, scalar) :: fields)

/-! ## Codecs -/

/-- A library's two functions for records of one type. Neither has a value where it fails. -/
structure Codec (α : Type) where
  encode : α → Option String
  decode : String → Option α

/-- What the format promises of a codec for records with these fields. -/
structure Codec.Follows {α : Type} (c : Codec α) (fields : α → Fields) : Prop where
  /-- Plain fields are written line by line, if each has a value in the format. -/
  encode_of_fits : ∀ a, (fields a).Plain → (∀ field ∈ fields a, field.2.Fits) →
    c.encode a = some (document (fields a))
  /-- A number beyond those of the format is an error. -/
  encode_of_not_fits : ∀ a, (∃ field ∈ fields a, ¬field.2.Fits) → c.encode a = none
  /-- A document of the fields of a record is read as this record. -/
  decode_of_document : ∀ a text, (fields a).Plain → IsDocument text (fields a) →
    c.decode text = some a

end Reckoner.Toml
