/-
The texts of values, and the characters in them.

A whole number is a sign and its digits. A real is a sign and a decimal in one of two notations, or
one of the words for infinity and not-a-number, which alone have capital letters in them. All of them
have one form: a sign, what stands for a mantissa, and perhaps a power of ten with a sign of its own.
-/
import Reckoner.Proofs.Decimal.Notation
import Reckoner.Value.Basic

set_option autoImplicit false

namespace Reckoner

/-! ## Whole numbers -/

/-- An integer is written as a sign and the digits of its size. -/
theorem toList_toString_int (n : Int) :
    (toString n).toList = signText (decide (n < 0)) ++ Nat.toDigits 10 n.natAbs := by
  cases n with
  | ofNat m =>
    have htext : toString (Int.ofNat m) = toString m := rfl
    have hsign : decide (Int.ofNat m < 0) = false := decide_eq_false (by simp)
    rw [htext, Nat.toString_eq_ofList_toDigits, String.toList_ofList, hsign]
    rfl
  | negSucc m =>
    -- Negative numbers are counted from -1 on, so the size is one more than the count.
    have htext : toString (Int.negSucc m) = "-" ++ toString (m + 1) := rfl
    have hsign : decide (Int.negSucc m < 0) = true := decide_eq_true (Int.negSucc_lt_zero m)
    rw [htext, String.toList_append, Nat.toString_eq_ofList_toDigits, hsign,
      show "-".toList = ['-'] from rfl, String.toList_ofList]
    rfl

/-! ## Reals -/

/-- The figures of a real are digits: they are those of its significand, without zeros at the end.
-/
theorem isDigit_of_mem_shortestFigures {m : Nat} {q : Int} {c : Char}
    (h : c ∈ (shortestFigures m q).digits) : c.isDigit = true := by
  obtain ⟨n, hn⟩ := (Figures.ofDecimal (Decimal.shortest m q)).digits_eq_trimmed
  refine isDigit_of_mem_toDigits (n := (Decimal.shortest m q).significand) ?_
  -- With the zeros that were taken away, they are the digits of the significand.
  have hmem := List.mem_append_left (List.replicate n '0') h
  rw [shortestFigures, ← hn] at hmem
  exact hmem

/-- There is no sign but a minus. A plus stands in front of powers of ten only. -/
theorem eq_of_mem_signText {negative : Bool} {c : Char} (h : c ∈ signText negative) : c = '-' := by
  cases negative with
  | false => exact absurd h List.not_mem_nil
  | true => exact List.mem_singleton.mp h

/-- The characters that the text of a real may have. Those of the two words are kept apart from the
others: a text with none of their letters in it is neither word. -/
theorem mem_realText {x : Float} {c : Char} (h : c ∈ (realText x).toList) :
    c.isDigit = true ∨ c ∈ ['.', 'e', '+', '-'] ∨ c ∈ "NaN".toList ∨ c ∈ "Infinity".toList := by
  -- The cases of the writer: not-a-number, infinity, nought, and figures in one of two notations.
  unfold realText at h
  split at h
  · exact Or.inr (Or.inr (Or.inl h))
  · next negative _ =>
    cases negative with
    | false => exact Or.inr (Or.inr (Or.inr h))
    | true =>
      rcases List.mem_cons.mp h with rfl | h
      · exact Or.inr (Or.inl (by decide))
      · exact Or.inr (Or.inr (Or.inr h))
  · next negative m q _ =>
    split at h
    · exact Or.inl (by rw [List.mem_singleton.mp h]; decide)
    · rw [String.toList_ofList] at h
      rcases List.mem_append.mp h with hsign | h
      · exact Or.inr (Or.inl (by rw [eq_of_mem_signText hsign]; decide))
      split at h
      · rcases Figures.mem_positional h with hc | rfl | rfl
        · exact Or.inl (isDigit_of_mem_shortestFigures hc)
        · exact Or.inl (by decide)
        · exact Or.inr (Or.inl (by decide))
      · rcases Figures.mem_scientific h with hc | hc | hc
        · exact Or.inl (isDigit_of_mem_shortestFigures hc)
        · exact Or.inr (Or.inl hc)
        · exact Or.inl hc

/-! ### Points and signs -/

/-- The form of the text of a value: a sign, letters, digits and at most one point, and perhaps a
power of ten, which has a sign always. No sign stands at the end. -/
def HasValueForm (cs : List Char) : Prop :=
  ∃ negative mantissa power, cs = signText negative ++ (mantissa ++ power) ∧
    (∀ c ∈ mantissa, c.isAlphanum = true ∨ c = '.') ∧ mantissa.count '.' ≤ 1 ∧
    (power = [] ∧ mantissa ≠ [] ∨
      ∃ sign digits, power = 'e' :: sign :: digits ∧ (sign = '+' ∨ sign = '-') ∧ digits ≠ [] ∧
        ∀ c ∈ digits, c.isDigit = true)

/-- Digits are characters of words, so one form will do for words and for numbers. -/
theorem isAlphanum_of_isDigit {c : Char} (h : c.isDigit = true) : c.isAlphanum = true := by
  rw [Char.isAlphanum, h, Bool.or_true]

/-- Among digits there is no point to count. -/
theorem count_point_of_digits {cs : List Char} (h : ∀ c ∈ cs, c.isDigit = true) :
    cs.count '.' = 0 := by
  refine List.count_eq_zero.mpr fun hmem => ?_
  exact absurd (h '.' hmem) (by decide)

/-- The zeros that fill up places are digits like the others. -/
theorem isDigit_of_mem_replicate {n : Nat} {c : Char} (h : c ∈ List.replicate n '0') :
    c.isDigit = true := by
  rw [List.eq_of_mem_replicate h]
  decide

/-- A point stands behind the units, if figures do. -/
theorem Figures.count_positional_le {f : Figures} (hf : ∀ c ∈ f.digits, c.isDigit = true) :
    f.positional.count '.' ≤ 1 := by
  have hzeros : ∀ n, (List.replicate n '0').count '.' = 0 :=
    fun n => count_point_of_digits fun c hc => isDigit_of_mem_replicate hc
  have htake : ∀ n, (f.digits.take n).count '.' = 0 :=
    fun n => count_point_of_digits fun c hc => hf c (List.mem_of_mem_take hc)
  unfold positional
  split_ifs
  · -- Below one, the point stands behind a zero, and only zeros and figures behind it.
    simp [hzeros, count_point_of_digits hf]
  · dsimp only
    split
    · simp [hzeros, htake]
    · next hbehind =>
      have hdrop : (f.digits.drop (f.power.toNat + 1)).count '.' = 0 :=
        count_point_of_digits fun c hc => hf c (List.mem_of_mem_drop hc)
      simp [hzeros, htake, hdrop]

/-- Places without figures are filled, so there is always a character in front of the point. -/
theorem Figures.positional_ne_nil (f : Figures) : f.positional ≠ [] := by
  unfold positional
  split_ifs
  · exact List.cons_ne_nil _ _
  · dsimp only
    split
    · -- The places up to the units are filled, if not by figures.
      refine List.ne_nil_of_length_pos ?_
      rw [List.length_append, List.length_take, List.length_replicate]
      omega
    · simp

/-- The mantissa of a power of ten has a point behind its first figure, if there are others. -/
theorem Figures.exists_scientific {f : Figures} (hf : ∀ c ∈ f.digits, c.isDigit = true) :
    ∃ mantissa, f.scientific =
        mantissa ++ 'e' :: (if f.power < 0 then '-' else '+') :: Nat.toDigits 10 f.power.natAbs ∧
      (∀ c ∈ mantissa, c.isDigit = true ∨ c = '.') ∧ mantissa.count '.' ≤ 1 := by
  unfold scientific
  refine ⟨_, rfl, ?_⟩
  -- By the number of figures, since a single one has no point behind it.
  split
  · exact ⟨fun c hc => absurd hc List.not_mem_nil, Nat.zero_le _⟩
  · next d hdigits =>
    rw [hdigits] at hf
    exact ⟨fun c hc => Or.inl (hf c hc), by simp [count_point_of_digits hf]⟩
  · next d behind _ hdigits =>
    rw [hdigits] at hf
    obtain ⟨hd, hbehind⟩ := List.forall_mem_cons.mp hf
    have hpoint : d ≠ '.' := by
      rintro rfl
      exact absurd hd (by decide)
    refine ⟨fun c hc => ?_, by simp [hpoint, count_point_of_digits hbehind]⟩
    rcases List.mem_cons.mp hc with rfl | hc
    · exact Or.inl hd
    rcases List.mem_cons.mp hc with rfl | hc
    · exact Or.inr rfl
    · exact Or.inl (hbehind c hc)

/-- A text without a power of ten. It has to be more than a sign, since no sign may stand at the
end. -/
theorem HasValueForm.ofMantissa (negative : Bool) {mantissa : List Char}
    (hmantissa : ∀ c ∈ mantissa, c.isAlphanum = true ∨ c = '.') (hpoint : mantissa.count '.' ≤ 1)
    (hne : mantissa ≠ []) : HasValueForm (signText negative ++ mantissa) :=
  ⟨negative, mantissa, [], by rw [List.append_nil], hmantissa, hpoint, Or.inl ⟨rfl, hne⟩⟩

/-- The letters of a word stand for a mantissa that has no point. -/
theorem HasValueForm.ofWord (negative : Bool) {word : List Char}
    (hword : word.all Char.isAlphanum = true) (hne : word ≠ []) :
    HasValueForm (signText negative ++ word) := by
  have hall := List.all_eq_true.mp hword
  have hpoint : word.count '.' = 0 :=
    List.count_eq_zero.mpr fun hmem => absurd (hall '.' hmem) (by decide)
  exact .ofMantissa negative (fun c hc => Or.inl (hall c hc)) (by omega) hne

/-- The text of a real has the form of a value, in either notation: without a power of ten the point
stands among the places, with one it stands behind the first figure. -/
theorem hasValueForm_realText (x : Float) : HasValueForm (realText x).toList := by
  unfold realText
  split
  · have hword : HasValueForm (signText false ++ "NaN".toList) :=
      .ofWord false (by decide) (by decide)
    exact hword
  · next negative _ =>
    have hword : HasValueForm (signText negative ++ "Infinity".toList) :=
      .ofWord negative (by decide) (by decide)
    cases negative with
    | false => exact hword
    | true => exact hword
  · next negative m q _ =>
    have hdigits : ∀ c ∈ (shortestFigures m q).digits, c.isDigit = true :=
      fun c hc => isDigit_of_mem_shortestFigures hc
    split_ifs
    · -- Nought has no sign, whatever the sign of the real.
      have hzero : HasValueForm (signText false ++ ['0']) :=
        .ofWord false (by decide) (by decide)
      exact hzero
    · rw [String.toList_ofList]
      by_cases hplaces : -7 ≤ (shortestFigures m q).power ∧ (shortestFigures m q).power ≤ 20
      · rw [if_pos hplaces]
        refine .ofMantissa negative (fun c hc => ?_) (Figures.count_positional_le hdigits)
          (Figures.positional_ne_nil _)
        rcases Figures.mem_positional hc with hc | rfl | rfl
        · exact Or.inl (isAlphanum_of_isDigit (hdigits c hc))
        · exact Or.inl (by decide)
        · exact Or.inr rfl
      · rw [if_neg hplaces]
        obtain ⟨mantissa, htext, hmantissa, hpoint⟩ := Figures.exists_scientific hdigits
        refine ⟨negative, mantissa, _, by rw [htext], fun c hc => ?_, hpoint, Or.inr ⟨_, _, rfl,
          ?_, Nat.toDigits_ne_nil, fun c hc => isDigit_of_mem_toDigits hc⟩⟩
        · exact (hmantissa c hc).imp isAlphanum_of_isDigit id
        · split_ifs
          · exact Or.inr rfl
          · exact Or.inl rfl

/-! ## Results -/

/-- A whole number has no character in its text that a real may not have. -/
theorem Value.mem_resultText {v : Value} {c : Char} (h : c ∈ v.resultText.toList) :
    c.isDigit = true ∨ c ∈ ['.', 'e', '+', '-'] ∨ c ∈ "NaN".toList ∨ c ∈ "Infinity".toList := by
  cases v with
  | whole n =>
    rw [resultText, toList_toString_int] at h
    rcases List.mem_append.mp h with hsign | hdigit
    · exact Or.inr (Or.inl (by rw [eq_of_mem_signText hsign]; decide))
    · exact Or.inl (isDigit_of_mem_toDigits hdigit)
  | real x => exact mem_realText h

/-- The text of a value has the form. So whatever a result puts into the entry, it holds one point
at most and ends with no sign. -/
theorem Value.hasValueForm_resultText (v : Value) : HasValueForm v.resultText.toList := by
  cases v with
  | whole n =>
    have hdigits : ∀ c ∈ Nat.toDigits 10 n.natAbs, c.isDigit = true :=
      fun c hc => isDigit_of_mem_toDigits hc
    rw [resultText, toList_toString_int]
    refine .ofMantissa _ (fun c hc => Or.inl (isAlphanum_of_isDigit (hdigits c hc))) ?_
      Nat.toDigits_ne_nil
    rw [count_point_of_digits hdigits]
    exact Nat.zero_le 1
  | real x => exact hasValueForm_realText _

end Reckoner
