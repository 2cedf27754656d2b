/-
Plain documents of fields are read as their fields.

Each line of such a document is one that is read whatever stands behind it, since a word without
quotes in it ends at its second quote, and digits end at the end of the line. So the document is one of
plain lines, with an entry for each field. The texts that stand for a number are its digits and no
others, which makes it enough to read the digits of a number.
-/
import Reckoner.Proofs.Toml.Lines
import Reckoner.Proofs.Toml.Values
import Reckoner.Toml.Codec

set_option autoImplicit false

namespace Reckoner.Toml

/-- The item that a field's value is read as. -/
def Scalar.item : Scalar → Item
  | .word text => .text text
  | .whole n => .integer n

/-- A letter or digit stands for itself between double quotes. -/
theorem isVerbatim_of_isAlphanum {c : Char} (h : c.isAlphanum = true) : IsVerbatim c := by
  have hrange : 48 ≤ c.toNat ∧ c.toNat ≤ 57 ∨ 65 ≤ c.toNat ∧ c.toNat ≤ 90 ∨
      97 ≤ c.toNat ∧ c.toNat ≤ 122 := by
    rcases Bool.or_eq_true_iff.mp h with halpha | hdigit
    · exact Or.inr (Token.toNat_of_isAlpha halpha)
    · exact Or.inl (Token.toNat_of_isDigit hdigit)
  refine ⟨?_, ?_, ?_⟩
  · simp only [isPlain, Bool.or_eq_true, Bool.and_eq_true, decide_eq_true_eq, bne_iff_ne]
    omega
  · rintro rfl
    exact absurd h (by decide)
  · rintro rfl
    exact absurd h (by decide)

/-- Digits that stand for a number are those in which it is written. -/
theorem toDigits_of_denotes {digits : List Char} (hne : digits ≠ [])
    (hdigits : ∀ d ∈ digits, d.isDigit = true)
    (hzero : digits.head? = some '0' → digits = ['0']) :
    Nat.toDigits 10 (natOfDigits digits) = digits := by
  by_cases hhead : digits.head? = some '0'
  · rw [hzero hhead]
    rfl
  · refine (toDigits_natOfDigits hdigits (fun d hd => ?_) hne).2
    rintro rfl
    exact hhead hd

/-! ## Lines -/

section FieldLines

variable {key value : String} (hne : key.toList ≠ [])
  (hbare : ∀ c ∈ key.toList, c.isAlphanum = true ∨ c = '_')

include hne hbare

/-- A line whose value is read is the line of a document. -/
theorem exists_line {item : Item} (hhead : ∀ c, value.toList.head? = some c → isSpace c = false)
    (hreads : ∀ rest, value? maxDepth (value.toList ++ '\n' :: rest) = some (item, '\n' :: rest)) :
    ∃ l : Line, l.text = (fieldLine key value).toList ∧ l.entry = (key, item) := by
  have hkey : ∀ c ∈ key.toList, isKeyChar c = true := by
    intro c hc
    rcases hbare c hc with h | rfl
    · simp [isKeyChar, h]
    · decide
  refine ⟨⟨key, value.toList, item, hne, hkey, hhead, hreads⟩, ?_, rfl⟩
  simp [Line.text, fieldLine]

/-- The line of a field, with any text that stands for its value. -/
theorem exists_line_of_denotes {scalar : Scalar} (hvalue : Denotes value scalar)
    (hword : ∀ text, scalar = .word text → ∀ c ∈ text.toList, c.isAlphanum = true) :
    ∃ l : Line, l.text = (fieldLine key value).toList ∧ l.entry = (key, scalar.item) := by
  cases hvalue with
  | word text =>
    have hverbatim : ∀ c ∈ text.toList, IsVerbatim c :=
      fun c hc => isVerbatim_of_isAlphanum (hword text rfl c hc)
    refine exists_line hne hbare (fun c hc => ?_) fun rest => ?_
    · obtain rfl : '"' = c := by simpa using hc
      decide
    · have hread := value?_word hverbatim maxDepth rest
      rw [String.ofList_toList] at hread
      simpa [Scalar.item] using hread
  | @whole digits hdigitsNe hdigits hzero hfits =>
    have htoDigits := toDigits_of_denotes hdigitsNe hdigits hzero
    refine exists_line hne hbare (fun c hc => ?_) fun rest => ?_
    · rw [String.toList_ofList] at hc
      have hdigit := hdigits c (List.mem_of_mem_head? hc)
      have hspace : c ≠ ' ' := ne_of_isDigit hdigit (by decide)
      have htab : c ≠ '\t' := ne_of_isDigit hdigit (by decide)
      simp [isSpace, hspace, htab]
    · have hlimit : natOfDigits digits < 2 ^ 63 := by
        rw [maxWhole] at hfits
        omega
      have hread := value?_toDigits hlimit maxDepth rest
      rw [htoDigits] at hread
      rw [String.toList_ofList]
      exact hread

end FieldLines

/-! ## Documents -/

/-- The lines of a document, with an entry for each field. -/
theorem exists_lines {text : String} {fields : Fields} (hdoc : IsDocument text fields)
    (hplain : fields.Plain) :
    ∃ lines : List Line, lines.flatMap Line.text = text.toList ∧
      lines.map Line.entry = fields.map fun field => (field.1, field.2.item) := by
  induction hdoc with
  | nil => exact ⟨[], rfl, rfl⟩
  | @cons key value text scalar fields hvalue htext ih =>
    obtain ⟨hne, hbare, hnodup, hword⟩ := hplain
    obtain ⟨lines, hlines, hentries⟩ := ih
      ⟨fun field hfield => hne field (List.mem_cons_of_mem _ hfield),
        fun field hfield => hbare field (List.mem_cons_of_mem _ hfield),
        (List.nodup_cons.mp hnodup).2,
        fun key text hfield => hword key text (List.mem_cons_of_mem _ hfield)⟩
    obtain ⟨l, hl, hentry⟩ := exists_line_of_denotes (hne _ List.mem_cons_self)
      (hbare _ List.mem_cons_self) hvalue fun word hscalar =>
        hword key word (by rw [hscalar]; exact List.mem_cons_self)
    refine ⟨l :: lines, ?_, ?_⟩
    · rw [List.flatMap_cons, hl, hlines, String.toList_append]
    · rw [List.map_cons, hentry, hentries, List.map_cons]

/-- A plain document has an entry for each field. -/
theorem ofText?_document {text : String} {fields : Fields} (hdoc : IsDocument text fields)
    (hplain : fields.Plain) :
    ofText? text = some (fields.map fun field => (field.1, field.2.item)) := by
  obtain ⟨lines, hlines, hentries⟩ := exists_lines hdoc hplain
  have hkeys : lines.map Line.key = fields.map Prod.fst := by
    have hfirst := congrArg (List.map Prod.fst) hentries
    rw [List.map_map, List.map_map] at hfirst
    exact hfirst
  have hnodup : (lines.map Line.key).Nodup := by
    rw [hkeys]
    exact hplain.keys_nodup
  have hread := ofText?_lines lines
  rw [hlines, String.ofList_toList, if_pos hnodup, hentries] at hread
  exact hread

end Reckoner.Toml
