/-
Numerals, and those of them that have a value.

The lexer takes any run of digits and points for the mantissa of a numeral. It has a value exactly if
there is a digit in it and no second point. Digits alone are a whole number, and everything else is a
real.
-/
import Reckoner.Proofs.Decimal.Notation
import Reckoner.Proofs.Lexer.Shapes
import Reckoner.Proofs.Value.Integers

set_option autoImplicit false

namespace Reckoner

/-! ## Decimals -/

namespace Decimal

open Token (IsPower isMantissaChar isDigit_of_isMantissaChar)

variable {mantissa power : List Char}

theorem exists_powerOfText? (h : power = [] ∨ IsPower power) :
    ∃ p, powerOfText? power = some p := by
  rcases h with rfl | ⟨e, sign, digits, rfl, he, hsign, hne, hdigits⟩
  · exact ⟨0, rfl⟩
  · have hsome : (digits.isEmpty || !digits.all Char.isDigit) = false := by
      rw [List.isEmpty_eq_false_iff.mpr hne, List.all_eq_true.mpr hdigits]
      rfl
    have hread := Bool.eq_false_iff.mp hsome
    rcases hsign with rfl | rfl | rfl
    · -- The digits begin with no sign.
      refine ⟨natOfDigits digits, ?_⟩
      rw [List.nil_append, powerOfText?, if_pos he, if_neg hread, if_neg Bool.false_ne_true]
      · rintro rest rfl
        exact absurd (hdigits '-' List.mem_cons_self) (by decide)
      · rintro rest rfl
        exact absurd (hdigits '+' List.mem_cons_self) (by decide)
    · refine ⟨natOfDigits digits, ?_⟩
      rw [List.singleton_append, powerOfText?, if_pos he, if_neg hread, if_neg Bool.false_ne_true]
    · refine ⟨-(natOfDigits digits : Int), ?_⟩
      rw [List.singleton_append, powerOfText?, if_pos he, if_neg hread, if_pos rfl]

/-- A mantissa with a digit and no second point is that of a decimal. -/
theorem exists_ofText? (hmantissa : ∀ c ∈ mantissa, isMantissaChar c = true)
    (hpoint : mantissa.count '.' ≤ 1) (hdigit : ∃ c ∈ mantissa, c.isDigit = true)
    (hpower : power = [] ∨ IsPower power) : ∃ d, ofText? (mantissa ++ power) = some d := by
  obtain ⟨p, hp⟩ := exists_powerOfText? hpower
  have hstop : ∀ c, power.head? = some c → c.isDigit = false ∧ c ≠ '.' :=
    fun c hc => Token.head?_power hpower hc
  obtain ⟨d, hd, hdigit⟩ := hdigit
  by_cases hmem : '.' ∈ mantissa
  · obtain ⟨whole, places, rfl⟩ := List.append_of_mem hmem
    rw [List.count_append, List.count_cons_self] at hpoint
    have hwhole : '.' ∉ whole := List.count_eq_zero.mp (by omega)
    have hplaces : '.' ∉ places := List.count_eq_zero.mp (by omega)
    have hsome : whole ++ places ≠ [] := by
      refine List.ne_nil_of_mem (a := d) ?_
      have hne : d ≠ '.' := ne_of_isDigit hdigit (by decide)
      simpa [hne] using hd
    rw [List.append_assoc, List.cons_append]
    refine ⟨_, ofText?_point hsome (fun c hc => ?_) (fun c hc => ?_)
      (fun c hc => (hstop c hc).1) hp⟩
    · exact isDigit_of_isMantissaChar (hmantissa c (by simp [hc])) (ne_of_mem_of_not_mem hc hwhole)
    · exact isDigit_of_isMantissaChar (hmantissa c (by simp [hc])) (ne_of_mem_of_not_mem hc hplaces)
  · refine ⟨_, ofText?_noPoint (List.ne_nil_of_mem hd) (fun c hc => ?_) hstop hp⟩
    exact isDigit_of_isMantissaChar (hmantissa c hc) (ne_of_mem_of_not_mem hc hmem)

/-- Behind a second point the reader finds neither digits nor a power of ten. -/
theorem ofText?_of_points (hmantissa : ∀ c ∈ mantissa, isMantissaChar c = true)
    (hpoints : 1 < mantissa.count '.') (power : List Char) : ofText? (mantissa ++ power) = none := by
  have hdigits : ∀ run : List Char, (∀ c ∈ run, isMantissaChar c = true) → '.' ∉ run →
      ∀ c ∈ run, c.isDigit = true := fun run hrun hpoint c hc =>
    isDigit_of_isMantissaChar (hrun c hc) (ne_of_mem_of_not_mem hc hpoint)
  -- The mantissa is split at its first two points.
  obtain ⟨whole, behind, rfl, hwhole⟩ :=
    List.eq_append_cons_of_mem (List.count_pos_iff.mp (Nat.zero_lt_of_lt hpoints))
  rw [List.count_append, List.count_cons_self, List.count_eq_zero.mpr hwhole] at hpoints
  obtain ⟨places, more, rfl, hplaces⟩ :=
    List.eq_append_cons_of_mem (List.count_pos_iff.mp (show 0 < behind.count '.' by omega))
  have hstop : ∀ c, ('.' :: (more ++ power)).head? = some c → c.isDigit = false := by
    intro c hc
    rw [← Option.some.inj hc]
    decide
  have hnopower : powerOfText? ('.' :: (more ++ power)) = none := rfl
  have hread := ofText?_point_eq (hdigits whole (fun c hc => hmantissa c (by simp [hc])) hwhole)
    (hdigits places (fun c hc => hmantissa c (by simp [hc])) hplaces) hstop
  rw [List.append_assoc, List.cons_append, List.append_assoc, List.cons_append, hread, hnopower]
  split_ifs
  · rfl
  · rfl

/-- A point without digits on either side is no decimal. -/
theorem ofText?_of_noDigit (hmantissa : ∀ c ∈ mantissa, isMantissaChar c = true)
    (hne : mantissa ≠ []) (hnone : ∀ c ∈ mantissa, c.isDigit = false)
    (hpower : power = [] ∨ IsPower power) : ofText? (mantissa ++ power) = none := by
  obtain ⟨c, more, rfl⟩ := List.exists_cons_of_ne_nil hne
  obtain ⟨hc, hmore⟩ := List.forall_mem_cons.mp hnone
  have hpoint : c = '.' := by
    by_contra hne
    exact Bool.false_ne_true
      (hc.symm.trans (isDigit_of_isMantissaChar (hmantissa c List.mem_cons_self) hne))
  have hstop : ∀ d, (more ++ power).head? = some d → d.isDigit = false := by
    intro d hd
    cases more with
    | nil => exact (Token.head?_power hpower hd).1
    | cons e more =>
      obtain rfl := Option.some.inj hd
      exact hmore e List.mem_cons_self
  subst hpoint
  -- Nothing stands before the point, and nothing between it and the power.
  have hempty : ∀ c ∈ ([] : List Char), c.isDigit = true := fun c hc => absurd hc List.not_mem_nil
  exact (ofText?_point_eq hempty hempty hstop).trans (if_pos rfl)

/-- A mantissa and a power of ten are a decimal unless the mantissa has two points or no digit. -/
theorem ofText?_eq_none_iff (hmantissa : ∀ c ∈ mantissa, isMantissaChar c = true)
    (hne : mantissa ≠ []) (hpower : power = [] ∨ IsPower power) :
    ofText? (mantissa ++ power) = none ↔
      1 < mantissa.count '.' ∨ ∀ c ∈ mantissa, c.isDigit = false := by
  constructor
  · intro hnone
    by_contra hsound
    obtain ⟨hpoint, hdigit⟩ := not_or.mp hsound
    push Not at hdigit
    obtain ⟨c, hc, hcdigit⟩ := hdigit
    obtain ⟨d, hd⟩ := exists_ofText? hmantissa (Nat.le_of_not_lt hpoint)
      ⟨c, hc, (Bool.not_eq_false _).mp hcdigit⟩ hpower
    exact absurd (hnone.symm.trans hd) (Option.some_ne_none d).symm
  · rintro (hpoints | hnone)
    · exact ofText?_of_points hmantissa hpoints power
    · exact ofText?_of_noDigit hmantissa hne hnone hpower

end Decimal

/-! ## Reals -/

/-- Capitals are made small, digits and points are not changed. -/
theorem toLower_of_isMantissaChar {c : Char} (h : Token.isMantissaChar c = true) :
    c.toLower = c := by
  have hrange := Token.toNat_of_isMantissaChar h
  refine dif_neg fun hcapital => ?_
  have hlow : 65 ≤ c.toNat := UInt32.le_iff_toNat_le.mp hcapital.1
  omega

/-- A text that begins with a digit or a point has no sign and is no word. -/
theorem realOfText?_of_isMantissaChar {d : Char} (hd : Token.isMantissaChar d = true)
    (rest : List Char) :
    realOfText? (d :: rest) = (Decimal.ofText? (d :: rest)).map Decimal.toFloat := by
  have hne : ∀ c, Token.isMantissaChar c = false → d ≠ c := by
    rintro c hc rfl
    exact Bool.false_ne_true (hc.symm.trans hd)
  have hword : ∀ c cs, Token.isMantissaChar c = false → (d :: rest).map Char.toLower ≠ c :: cs := by
    intro c cs hc h
    rw [List.map_cons, toLower_of_isMantissaChar hd] at h
    exact hne c hc (List.cons.inj h).1
  have hunsigned : unsignedRealOfText? (d :: rest) =
      (Decimal.ofText? (d :: rest)).map Decimal.toFloat := by
    rw [unsignedRealOfText?, if_neg, if_neg]
    · exact hword 'n' _ (by decide)
    · exact not_or.mpr ⟨hword 'i' _ (by decide), hword 'i' _ (by decide)⟩
  unfold realOfText?
  split
  · next h => exact absurd (List.cons.inj h).1 (hne '-' (by decide))
  · next h => exact absurd (List.cons.inj h).1 (hne '+' (by decide))
  · exact hunsigned

/-! ## Values -/

/-- That the mantissa has a second point, or no digit. -/
def Token.IsMalformed (text : String) : Prop :=
  1 < (mantissaOf text).count '.' ∨ ∀ c ∈ mantissaOf text, c.isDigit = false

theorem Token.isMalformed_iff (text : String) :
    IsMalformed text ↔ 1 < (mantissaOf text).count '.' ∨
      (mantissaOf text).all (fun c => !c.isDigit) = true := by
  simp [IsMalformed]

instance (text : String) : Decidable (Token.IsMalformed text) :=
  decidable_of_iff' _ (Token.isMalformed_iff text)

namespace Value

open Token (isMantissaChar isDigit_of_isMantissaChar)

/-- Digits are a whole number. -/
theorem ofNumeral?_ofList_digits {ds : List Char} (hne : ds ≠ [])
    (hall : ∀ c ∈ ds, c.isDigit = true) :
    ofNumeral? (String.ofList ds) = some (.whole (natOfDigits ds)) := by
  have hchars : (String.ofList ds).toList = ds := String.toList_ofList
  rw [ofNumeral?_of_digits (by rwa [hchars]) (by rwa [hchars]), hchars,
    natOfDigits_eq_decimalReading]

/-- A numeral that is not made of digits alone is read as a decimal, and is real. -/
theorem ofNumeral?_of_not_digits {text : String} (h : Token.IsNumeral text)
    (hnot : ¬∀ c ∈ text.toList, c.isDigit = true) :
    ofNumeral? text = (Decimal.ofText? text.toList).map fun d => .real d.toFloat := by
  obtain ⟨c, rest, power, htext, hc, hrest, hpower⟩ := h
  have hmark : text.toList.any (fun d => d == '.' || d == 'e' || d == 'E') = true := by
    -- Without a point in the mantissa and without a power of ten there are only digits.
    by_contra hunmarked
    have hnone : ∀ d ∈ text.toList, d ≠ '.' ∧ d ≠ 'e' ∧ d ≠ 'E' := by
      simpa [and_assoc] using hunmarked
    have hnopower : power = [] := by
      refine hpower.resolve_right ?_
      rintro ⟨e, sign, digits, rfl, he, -⟩
      have hletter := (hnone e (by simp [htext])).2
      exact he.elim hletter.1 hletter.2
    refine hnot fun d hd => isDigit_of_isMantissaChar ?_ (hnone d hd).1
    rw [htext, hnopower, List.append_nil] at hd
    exact (List.forall_mem_cons (p := fun d => isMantissaChar d = true)).mpr ⟨hc, hrest⟩ d hd
  rw [ofNumeral?, if_pos hmark, htext, realOfText?_of_isMantissaChar hc, Option.map_map]
  rfl

/-- A numeral has no value exactly if it is malformed. -/
theorem ofNumeral?_eq_none_iff {text : String} (h : Token.IsNumeral text) :
    ofNumeral? text = none ↔ Token.IsMalformed text := by
  obtain ⟨hne, hmantissa, power, htext, hpower⟩ := h.exists_power
  by_cases hdigits : ∀ c ∈ text.toList, c.isDigit = true
  · have hall : ∀ c ∈ Token.mantissaOf text, c.isDigit = true := fun c hc =>
      hdigits c (htext ▸ List.mem_append_left power hc)
    rw [ofNumeral?_of_digits (by simp [htext, hne]) hdigits]
    refine iff_of_false (Option.some_ne_none _) ?_
    rintro (hpoints | hnone)
    · have hpoint := List.count_pos_iff.mp (Nat.zero_lt_of_lt hpoints)
      exact absurd (hall '.' hpoint) (by decide)
    · obtain ⟨c, hc⟩ := List.exists_mem_of_ne_nil _ hne
      exact Bool.false_ne_true ((hnone c hc).symm.trans (hall c hc))
  · rw [ofNumeral?_of_not_digits h hdigits, Option.map_eq_none_iff, htext]
    exact Decimal.ofText?_eq_none_iff hmantissa hne hpower

end Value
end Reckoner
