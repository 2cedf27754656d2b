/-
Texts that are one token, and how the lexer takes them off the front of a line.

The shapes of numerals and names are described without the lexer: by the characters they are made
of and their order. The lexer takes runs that are as long as they can be. So a text of one of these
shapes is one token if what stands behind it cannot go on with the run, which is the case at the end
of the line and before every character that belongs neither to a name nor to a mantissa.
-/
import Reckoner.Token

set_option autoImplicit false

namespace Reckoner.Token

/-! ## Shapes -/

/-- A power of ten: the letter, at most one sign, and at least one digit. -/
def IsPower (cs : List Char) : Prop :=
  ∃ e sign digits, cs = e :: (sign ++ digits) ∧ (e = 'e' ∨ e = 'E') ∧
    (sign = [] ∨ sign = ['+'] ∨ sign = ['-']) ∧ digits ≠ [] ∧ ∀ c ∈ digits, c.isDigit = true

/-- A numeral: at least one digit or point, and perhaps a power of ten. -/
def IsNumeral (text : String) : Prop :=
  ∃ c mantissa power, text.toList = c :: (mantissa ++ power) ∧ isMantissaChar c = true ∧
    (∀ d ∈ mantissa, isMantissaChar d = true) ∧ (power = [] ∨ IsPower power)

/-- A name: a letter or underscore, and letters, digits and underscores. -/
def IsWord (text : String) : Prop :=
  ∃ c cs, text.toList = c :: cs ∧ isWordStart c = true ∧ ∀ d ∈ cs, isWordChar d = true

/-- The shape of a name as two checks, of its first character and of the others, so that it can be
decided. -/
theorem isWord_iff (text : String) :
    IsWord text ↔ text.toList.head?.any isWordStart = true ∧
      text.toList.tail.all isWordChar = true := by
  unfold IsWord
  cases text.toList with
  | nil =>
    constructor
    · rintro ⟨c, cs, h, -⟩
      exact absurd h (List.cons_ne_nil c cs).symm
    · rintro ⟨h, -⟩
      exact Bool.noConfusion h
  | cons c cs =>
    constructor
    · rintro ⟨c', cs', h, hc, hcs⟩
      obtain ⟨rfl, rfl⟩ := List.cons.inj h
      exact ⟨hc, List.all_eq_true.mpr hcs⟩
    · rintro ⟨hc, hcs⟩
      exact ⟨c, cs, rfl, hc, List.all_eq_true.mp hcs⟩

instance (text : String) : Decidable (IsWord text) := decidable_of_iff' _ (isWord_iff text)

/-- Whether every run ends before these characters. -/
def Breaks (rest : List Char) : Prop :=
  ∀ c, rest.head? = some c → isWordChar c = false ∧ c ≠ '.'

namespace Breaks

variable {c : Char} {rest : List Char}

/-- At the end of a line there is no character that could go on with a run. -/
theorem nil : Breaks [] := by
  intro c h
  exact absurd h (Option.some_ne_none c).symm

/-- Only the first character counts. What is behind it is not asked for. -/
theorem cons (h : isWordChar c = false ∧ c ≠ '.') (rest : List Char) : Breaks (c :: rest) := by
  intro d hd
  obtain rfl := Option.some.inj hd
  exact h

/-- Every digit belongs to names, so none goes on. -/
theorem isDigit (h : Breaks rest) (hc : rest.head? = some c) : c.isDigit = false := by
  have hword := (h c hc).1
  simp only [isWordChar, Char.isAlphanum, Bool.or_eq_false_iff] at hword
  exact hword.1.2

/-- Mantissas have a point besides digits. This is why a break is not only a character outside of
names, but no point either. -/
theorem isMantissaChar (h : Breaks rest) (hc : rest.head? = some c) :
    isMantissaChar c = false := by
  have hpoint : (c == '.') = false := beq_eq_false_iff_ne.mpr (h c hc).2
  rw [Token.isMantissaChar, h.isDigit hc, hpoint]
  rfl

end Breaks

/-! ## Classes of characters -/

section Classes

variable {c : Char}

/-- No blank has a visible ASCII code. -/
theorem isBlank_of_visible (h : 33 ≤ c.toNat) (h' : c.toNat ≤ 126) : isBlank c = false := by
  simp only [isBlank, Bool.or_eq_false_iff, Bool.and_eq_false_iff, decide_eq_false_iff_not,
    beq_eq_false_iff_ne, ne_eq]
  omega

/-- The codes of digits. The classes are compared by the codes of their characters, which leaves it
to arithmetic that they have none in common. -/
theorem toNat_of_isDigit (h : c.isDigit = true) : 48 ≤ c.toNat ∧ c.toNat ≤ 57 :=
  Char.isDigit_iff_toNat.mp h

/-- The codes of letters are in two ranges, with the capital ones first. -/
theorem toNat_of_isAlpha (h : c.isAlpha = true) :
    65 ≤ c.toNat ∧ c.toNat ≤ 90 ∨ 97 ≤ c.toNat ∧ c.toNat ≤ 122 := by
  rcases Bool.or_eq_true_iff.mp h with hupper | hlower
  · have hrange : c.val ≥ 'A'.val ∧ c.val ≤ 'Z'.val := of_decide_eq_true hupper
    exact Or.inl ⟨UInt32.le_iff_toNat_le.mp hrange.1, UInt32.le_iff_toNat_le.mp hrange.2⟩
  · obtain ⟨hlow, hhigh⟩ := Bool.and_eq_true_iff.mp hlower
    have hlow' : c.val ≥ 'a'.val := of_decide_eq_true hlow
    have hhigh' : c.val ≤ 'z'.val := of_decide_eq_true hhigh
    exact Or.inr ⟨UInt32.le_iff_toNat_le.mp hlow', UInt32.le_iff_toNat_le.mp hhigh'⟩

/-- The point comes shortly before the digits, so one range holds both. The slash between them does
no harm, since it is in no other range that is compared with this one. -/
theorem toNat_of_isMantissaChar (h : isMantissaChar c = true) : 46 ≤ c.toNat ∧ c.toNat ≤ 57 := by
  rcases Bool.or_eq_true_iff.mp h with hdigit | hpoint
  · have := toNat_of_isDigit hdigit
    omega
  · rw [eq_of_beq hpoint]
    decide

/-- The underscore is between the capital letters and the small ones, so one range holds all three.
-/
theorem toNat_of_isWordStart (h : isWordStart c = true) : 65 ≤ c.toNat ∧ c.toNat ≤ 122 := by
  rcases Bool.or_eq_true_iff.mp h with halpha | hunderscore
  · have := toNat_of_isAlpha halpha
    omega
  · rw [eq_of_beq hunderscore]
    decide

/-- What starts a name starts no numeral. -/
theorem isMantissaChar_of_isWordStart (h : isWordStart c = true) : isMantissaChar c = false := by
  -- The codes of one class are below those of the other.
  rcases Bool.eq_false_or_eq_true (isMantissaChar c) with hmantissa | hnot
  · have := toNat_of_isMantissaChar hmantissa
    have := toNat_of_isWordStart h
    omega
  · exact hnot

/-- What stands for itself belongs to no other class. -/
theorem classes_of_isOperator (h : isOperator c = true) :
    isBlank c = false ∧ isMantissaChar c = false ∧ isWordStart c = false := by
  -- There are few of them, so each one is tried.
  have hmem : c ∈ ['+', '-', '*', '/', '%', '^', '(', ')', ',', '='] := of_decide_eq_true h
  have hall : ['+', '-', '*', '/', '%', '^', '(', ')', ',', '='].all
      (fun d => !isBlank d && !isMantissaChar d && !isWordStart d) = true := by decide
  have hc := List.all_eq_true.mp hall c hmem
  simp only [Bool.and_eq_true, Bool.not_eq_true'] at hc
  exact ⟨hc.1.1, hc.1.2, hc.2⟩

end Classes

/-! ## Runs -/

/-- A run of characters ends where the first one that does not belong to it begins. -/
theorem takeWhile_dropWhile_run {p : Char → Bool} {run rest : List Char}
    (hrun : ∀ c ∈ run, p c = true) (hrest : ∀ c, rest.head? = some c → p c = false) :
    (run ++ rest).takeWhile p = run ∧ (run ++ rest).dropWhile p = rest := by
  rw [List.takeWhile_append_of_pos hrun, List.dropWhile_append_of_pos hrun]
  cases rest with
  | nil => exact ⟨List.append_nil _, rfl⟩
  | cons c rest =>
    have hc : ¬p c = true := Bool.eq_false_iff.mp (hrest c rfl)
    rw [List.takeWhile_cons_of_neg hc, List.dropWhile_cons_of_neg hc, List.append_nil]
    exact ⟨rfl, rfl⟩

/-- A sign is taken off the digits behind it. Without one nothing is taken. -/
theorem splitSign_run {sign digits rest : List Char}
    (hsign : sign = [] ∨ sign = ['+'] ∨ sign = ['-']) (hdigits : digits ≠ [])
    (hall : ∀ c ∈ digits, c.isDigit = true) :
    splitSign (sign ++ (digits ++ rest)) = (sign, digits ++ rest) := by
  rcases hsign with rfl | rfl | rfl
  · -- Without a sign, the first digit is no sign either.
    obtain ⟨d, ds, rfl⟩ := List.exists_cons_of_ne_nil hdigits
    have hd : d.isDigit = true := hall d List.mem_cons_self
    unfold splitSign
    split
    · next heq =>
      obtain ⟨rfl, -⟩ := List.cons.inj heq
      exact absurd hd (by decide)
    · next heq =>
      obtain ⟨rfl, -⟩ := List.cons.inj heq
      exact absurd hd (by decide)
    · rfl
  · rfl
  · rfl

/-- A power of ten is taken whole. Its digits end where the run does, since no digit is a break. -/
theorem splitPower_run {power rest : List Char} (hpower : IsPower power) (hrest : Breaks rest) :
    splitPower (power ++ rest) = (power, rest) := by
  obtain ⟨e, sign, digits, rfl, he, hsign, hdigits, hall⟩ := hpower
  have hsplit : splitSign (sign ++ digits ++ rest) = (sign, digits ++ rest) := by
    rw [List.append_assoc]
    exact splitSign_run hsign hdigits hall
  obtain ⟨htake, hdrop⟩ := takeWhile_dropWhile_run hall fun c hc => hrest.isDigit hc
  rw [List.cons_append, splitPower, hsplit, htake, hdrop, if_pos ⟨he, hdigits⟩]

/-- No power of ten begins where a run ends. -/
theorem splitPower_break {rest : List Char} (hrest : Breaks rest) :
    splitPower rest = ([], rest) := by
  cases rest with
  | nil => rfl
  | cons c rest =>
    -- The letter of a power belongs to names, which a break does not.
    have hc : ¬((c = 'e' ∨ c = 'E') ∧ (splitSign rest).2.takeWhile Char.isDigit ≠ []) := by
      rintro ⟨rfl | rfl, -⟩
      · exact absurd (hrest 'e' rfl).1 (by decide)
      · exact absurd (hrest 'E' rfl).1 (by decide)
    rw [splitPower, if_neg hc]

/-- A numeral is taken whole, with its power of ten if it has one. -/
theorem splitNumeral_run {mantissa power rest : List Char}
    (hmantissa : ∀ c ∈ mantissa, isMantissaChar c = true) (hpower : power = [] ∨ IsPower power)
    (hrest : Breaks rest) :
    splitNumeral (mantissa ++ power ++ rest) = (mantissa ++ power, rest) := by
  -- The mantissa ends before the letter of a power, and before a break.
  have hstop : ∀ c, (power ++ rest).head? = some c → isMantissaChar c = false := by
    intro c hc
    rcases hpower with rfl | ⟨e, sign, digits, rfl, rfl | rfl, -⟩
    · exact hrest.isMantissaChar hc
    · obtain rfl := Option.some.inj hc
      decide
    · obtain rfl := Option.some.inj hc
      decide
  have hsplit : splitPower (power ++ rest) = (power, rest) := by
    rcases hpower with rfl | hpower
    · exact splitPower_break hrest
    · exact splitPower_run hpower hrest
  obtain ⟨htake, hdrop⟩ := takeWhile_dropWhile_run hmantissa hstop
  rw [List.append_assoc, splitNumeral, htake, hdrop, hsplit]

/-- A name is taken whole, and nothing behind it. -/
theorem splitWord_run {cs rest : List Char} (hcs : ∀ c ∈ cs, isWordChar c = true)
    (hrest : Breaks rest) : splitWord (cs ++ rest) = (cs, rest) := by
  obtain ⟨htake, hdrop⟩ := takeWhile_dropWhile_run hcs fun c hc => (hrest c hc).1
  rw [splitWord, htake, hdrop]

/-! ## One token at the front -/

section Front

variable {text : String} {rest : List Char} {ts : List Token}

/-- At the end of the line there are no more tokens. -/
theorem ofChars_nil : ofChars [] = .ok [] := by
  rw [ofChars]

/-- A blank is skipped. So it may stand between any two tokens. -/
theorem ofChars_blank (h : ofChars rest = .ok ts) : ofChars (' ' :: rest) = .ok ts := by
  rw [ofChars, if_pos (by decide)]
  exact h

/-- A character that stands for itself is the next token, whatever is behind it. The lexer asks for
the other classes first, so it matters that it belongs to none of them. -/
theorem ofChars_op {c : Char} (hc : isOperator c = true) (h : ofChars rest = .ok ts) :
    ofChars (c :: rest) = .ok (.op c :: ts) := by
  obtain ⟨hblank, hmantissa, hword⟩ := classes_of_isOperator hc
  rw [ofChars, if_neg (Bool.eq_false_iff.mp hblank), if_neg (Bool.eq_false_iff.mp hmantissa),
    if_neg (Bool.eq_false_iff.mp hword), if_pos hc, h]
  rfl

/-- A numeral is the next token if what is behind it does not go on with it. Its first character has
a visible code, so it is not skipped as a blank. -/
theorem ofChars_numeral (htext : IsNumeral text) (hrest : Breaks rest)
    (h : ofChars rest = .ok ts) : ofChars (text.toList ++ rest) = .ok (.numeral text :: ts) := by
  obtain ⟨c, mantissa, power, hchars, hc, hmantissa, hpower⟩ := htext
  have hcode := toNat_of_isMantissaChar hc
  have hblank : isBlank c = false := isBlank_of_visible (by omega) (by omega)
  rw [hchars, List.cons_append, ofChars, if_neg (Bool.eq_false_iff.mp hblank), if_pos hc,
    splitNumeral_run hmantissa hpower hrest, h, ← hchars, String.ofList_toList]
  rfl

/-- A name is the next token if what is behind it does not go on with it. The lexer looks for
numerals before it looks for names, so it matters that the first character begins no numeral. -/
theorem ofChars_word (htext : IsWord text) (hrest : Breaks rest) (h : ofChars rest = .ok ts) :
    ofChars (text.toList ++ rest) = .ok (.word text :: ts) := by
  obtain ⟨c, cs, hchars, hc, hcs⟩ := htext
  have hcode := toNat_of_isWordStart hc
  have hblank : isBlank c = false := isBlank_of_visible (by omega) (by omega)
  have hmantissa : isMantissaChar c = false := isMantissaChar_of_isWordStart hc
  rw [hchars, List.cons_append, ofChars, if_neg (Bool.eq_false_iff.mp hblank),
    if_neg (Bool.eq_false_iff.mp hmantissa), if_pos hc, splitWord_run hcs hrest, h, ← hchars,
    String.ofList_toList]
  rfl

end Front

end Reckoner.Token
