/-
The shapes of tokens.

What the lexer splits off has the shape of its kind. Nothing more is known of a numeral: it may have
any number of points, or no digit at all. Its mantissa ends where the letter of a power of ten stands,
and otherwise with it.
-/
import Mathlib.Data.List.Infix
import Reckoner.Proofs.Lexer.Runs

set_option autoImplicit false

namespace Reckoner.Token

/-- The shape of a token: that of a numeral or a name, or one of the characters that stand for
themselves. -/
def IsShaped : Token → Prop
  | .numeral text => IsNumeral text
  | .word text => IsWord text
  | .op c => isOperator c = true

/-- What is split off as a power of ten is one, or nothing at all. -/
theorem splitPower_shape (cs : List Char) : (splitPower cs).1 = [] ∨ IsPower (splitPower cs).1 := by
  cases cs with
  | nil => exact Or.inl rfl
  | cons e rest =>
    by_cases hpower : (e = 'e' ∨ e = 'E') ∧ (splitSign rest).2.takeWhile Char.isDigit ≠ []
    · rw [splitPower, if_pos hpower]
      refine Or.inr ⟨e, (splitSign rest).1, _, rfl, hpower.1, ?_, hpower.2, ?_⟩
      · unfold splitSign
        split
        · exact Or.inr (Or.inl rfl)
        · exact Or.inr (Or.inr rfl)
        · exact Or.inl rfl
      · exact fun c hc => List.all_eq_true.mp List.all_takeWhile c hc
    · rw [splitPower, if_neg hpower]
      exact Or.inl rfl

/-- What the lexer takes for a numeral has the shape of one. -/
theorem isNumeral_splitNumeral {c : Char} (hc : isMantissaChar c = true) (rest : List Char) :
    IsNumeral (String.ofList (c :: (splitNumeral rest).1)) := by
  refine ⟨c, rest.takeWhile isMantissaChar, _, String.toList_ofList, hc, fun d hd => ?_,
    splitPower_shape (rest.dropWhile isMantissaChar)⟩
  exact List.all_eq_true.mp List.all_takeWhile d hd

/-- What it takes for a name has the shape of one. -/
theorem isWord_splitWord {c : Char} (hc : isWordStart c = true) (rest : List Char) :
    IsWord (String.ofList (c :: (splitWord rest).1)) := by
  refine ⟨c, _, String.toList_ofList, hc, fun d hd => ?_⟩
  exact List.all_eq_true.mp List.all_takeWhile d hd

/-- Whether a token has its shape and comes from these characters. -/
def ComesFrom (cs : List Char) (t : Token) : Prop :=
  t.IsShaped ∧ t.text.toList <:+: cs

theorem ComesFrom.mono {cs ds : List Char} {t : Token} (h : t.ComesFrom cs) (hpart : cs <:+: ds) :
    t.ComesFrom ds :=
  ⟨h.1, h.2.trans hpart⟩

/-! ## The parts of a numeral -/

theorem isMantissaChar_of_isDigit {c : Char} (h : c.isDigit = true) : isMantissaChar c = true := by
  rw [isMantissaChar, h, Bool.true_or]

/-- The only other character of a mantissa is the point. -/
theorem isDigit_of_isMantissaChar {c : Char} (h : isMantissaChar c = true) (hpoint : c ≠ '.') :
    c.isDigit = true := by
  rw [isMantissaChar, beq_eq_false_iff_ne.mpr hpoint, Bool.or_false] at h
  exact h

/-- A mantissa and a power of ten behind it are a numeral. -/
theorem isNumeral_of_parts {mantissa power : List Char} (hne : mantissa ≠ [])
    (hmantissa : ∀ c ∈ mantissa, isMantissaChar c = true) (hpower : power = [] ∨ IsPower power) :
    IsNumeral (String.ofList (mantissa ++ power)) := by
  obtain ⟨c, rest, rfl⟩ := List.exists_cons_of_ne_nil hne
  obtain ⟨hc, hrest⟩ := List.forall_mem_cons.mp hmantissa
  exact ⟨c, rest, power, by rw [String.toList_ofList, List.cons_append], hc, hrest, hpower⟩

/-- What stands before the letter of a power of ten. -/
def mantissaOf (text : String) : List Char :=
  text.toList.takeWhile fun c => c != 'e' && c != 'E'

/-- A numeral is its mantissa, which is not empty, and a power of ten or nothing. -/
theorem IsNumeral.exists_power {text : String} (h : IsNumeral text) :
    mantissaOf text ≠ [] ∧ (∀ c ∈ mantissaOf text, isMantissaChar c = true) ∧
      ∃ power, text.toList = mantissaOf text ++ power ∧ (power = [] ∨ IsPower power) := by
  obtain ⟨c, rest, power, hchars, hc, hrest, hpower⟩ := h
  have hmantissa : ∀ d ∈ c :: rest, isMantissaChar d = true := List.forall_mem_cons.mpr ⟨hc, hrest⟩
  have hletter : ∀ d ∈ c :: rest, (d != 'e' && d != 'E') = true := by
    intro d hd
    have hcode := toNat_of_isMantissaChar (hmantissa d hd)
    have hne : d ≠ 'e' ∧ d ≠ 'E' := by
      constructor
      · rintro rfl
        exact absurd hcode (by decide)
      · rintro rfl
        exact absurd hcode (by decide)
    simp [hne]
  have hstop : ∀ d, power.head? = some d → (d != 'e' && d != 'E') = false := by
    intro d hd
    rcases hpower with rfl | ⟨e, sign, digits, rfl, he, -⟩
    · exact absurd hd (by rintro ⟨⟩)
    · obtain rfl := Option.some.inj hd
      rcases he with rfl | rfl
      · rfl
      · rfl
  -- No character of the mantissa is the letter, and what is behind it begins with the letter.
  have hsplit : mantissaOf text = c :: rest := by
    rw [mantissaOf, hchars, ← List.cons_append]
    exact (takeWhile_dropWhile_run hletter hstop).1
  rw [hsplit]
  exact ⟨List.cons_ne_nil c rest, hmantissa, power, hchars, hpower⟩

/-- Digits are a numeral. -/
theorem isNumeral_of_digits {ds : List Char} (hne : ds ≠ [])
    (hall : ∀ c ∈ ds, c.isDigit = true) : IsNumeral (String.ofList ds) := by
  rw [← List.append_nil ds]
  exact isNumeral_of_parts hne (fun c hc => isMantissaChar_of_isDigit (hall c hc)) (Or.inl rfl)

/-- A power of ten does not begin like a mantissa. -/
theorem head?_power {power : List Char} (h : power = [] ∨ IsPower power) {c : Char}
    (hc : power.head? = some c) : c.isDigit = false ∧ c ≠ '.' := by
  rcases h with rfl | ⟨e, sign, digits, rfl, he, -⟩
  · exact absurd hc (by rintro ⟨⟩)
  · obtain rfl := Option.some.inj hc
    rcases he with rfl | rfl
    all_goals decide

end Reckoner.Token
