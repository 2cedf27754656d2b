/-
What was written by a codec is read again.

Nothing is known of a codec but which text it writes for fields, and which texts it reads as what. So
the text that is written has to be one of those that are read. For a word this is how it is written.
For a number it is a fact about decimal digits: those of a number have no zero in front of others, and
have the number as their value. That is also why the limit of the format plays a part in writing and
none in reading.
-/
import Reckoner.Proofs.Decimal.Digits
import Reckoner.Toml.Codec

set_option autoImplicit false

namespace Reckoner.Toml

variable {scalar : Scalar} {fields : Fields}

/-- A zero in front of the digits of a number is the only one of them. -/
theorem toDigits_eq_zero {n : Nat} (h : (Nat.toDigits 10 n).head? = some '0') :
    Nat.toDigits 10 n = ['0'] := by
  rcases Nat.eq_zero_or_pos n with rfl | hn
  · rfl
  · exact absurd rfl (toDigits_head_ne_zero hn _ h)

/-- A value is written in one of the texts that stand for it. -/
theorem denotes_text (h : scalar.Fits) : Denotes scalar.text scalar := by
  cases scalar with
  | word text => exact .word text
  | whole n =>
    have hfits : natOfDigits (Nat.toDigits 10 n) ≤ maxWhole := by
      rw [natOfDigits_toDigits]
      exact h
    have hdenotes := Denotes.whole Nat.toDigits_ne_nil (fun _ hd => isDigit_of_mem_toDigits hd)
      toDigits_eq_zero hfits
    rw [natOfDigits_toDigits, ← Nat.toString_eq_ofList_toDigits] at hdenotes
    exact hdenotes

/-- Fields are written as a document of these fields. -/
theorem isDocument_document (h : ∀ field ∈ fields, field.2.Fits) :
    IsDocument (document fields) fields := by
  induction fields with
  | nil => exact .nil
  | cons field fields ih =>
    obtain ⟨hfield, hfields⟩ := List.forall_mem_cons.mp h
    exact .cons field.1 (denotes_text hfield) (ih hfields)

/-- A record that can be written has a text, and the text is read as the record. -/
theorem Codec.Follows.decode_encode {α : Type} {c : Codec α} {fields : α → Fields}
    (hc : c.Follows fields) {a : α} (hplain : (fields a).Plain)
    (hfits : ∀ field ∈ fields a, field.2.Fits) :
    ∃ text, c.encode a = some text ∧ c.decode text = some a :=
  ⟨_, hc.encode_of_fits a hplain hfits,
    hc.decode_of_document a _ hplain (isDocument_document hfits)⟩

end Reckoner.Toml
