/-
The two notations of a decimal, and what is read from them.

Figures stand for a number, the same one with the zeros at their end as without them. Both notations
write just that number: reading either gives back a decimal of the same value, though not always with
the same exponent. A positional text without a point consists of digits only and begins with no zero,
so as a whole number it is written again as it stands.
-/
import Reckoner.Decimal.Notation
import Reckoner.Proofs.Decimal.Grid
import Reckoner.Proofs.Lexer.Runs

set_option autoImplicit false

namespace Reckoner

namespace Figures

/-- The figures of a positive number, which begin with its first digit. -/
structure Proper (f : Figures) : Prop where
  nonempty : f.digits ≠ []
  isDigit : ∀ c ∈ f.digits, c.isDigit = true
  head : ∀ d, f.digits.head? = some d → d ≠ '0'

/-- The number that figures stand for. -/
def toRat (f : Figures) : ℚ :=
  natOfDigits f.digits * (10 : ℚ) ^ (f.power + 1 - f.digits.length)

/-! ## Figures of a decimal -/

theorem ofDecimal_proper {d : Decimal} (hd : 0 < d.significand) : (ofDecimal d).Proper where
  nonempty := Nat.toDigits_ne_nil
  isDigit _ hc := isDigit_of_mem_toDigits hc
  head := toDigits_head_ne_zero hd

theorem toRat_ofDecimal (d : Decimal) : (ofDecimal d).toRat = d.toRat := by
  have hexp : d.exponent + ((Nat.toDigits 10 d.significand).length : Int) - 1 + 1 -
      (Nat.toDigits 10 d.significand).length = d.exponent := by omega
  rw [Decimal.toRat_eq, toRat, ofDecimal]
  dsimp only
  rw [natOfDigits_toDigits, hexp]

/-! ## Zeros at the end -/

theorem digits_eq_trimmed (f : Figures) :
    ∃ n, f.digits = f.trimmed.digits ++ List.replicate n '0' := by
  have hzeros : f.digits.reverse.takeWhile (· == '0') =
      List.replicate (f.digits.reverse.takeWhile (· == '0')).length '0' := by
    refine List.eq_replicate_iff.mpr ⟨rfl, fun c hc => ?_⟩
    exact eq_of_beq (List.all_eq_true.mp List.all_takeWhile c hc)
  refine ⟨(f.digits.reverse.takeWhile (· == '0')).length, ?_⟩
  rw [trimmed, ← List.reverse_replicate, ← hzeros, ← List.reverse_append,
    List.takeWhile_append_dropWhile, List.reverse_reverse]

theorem Proper.trimmed {f : Figures} (hf : f.Proper) : f.trimmed.Proper := by
  obtain ⟨n, hn⟩ := f.digits_eq_trimmed
  have hhead : ∀ d, f.trimmed.digits.head? = some d → f.digits.head? = some d := by
    intro d hd
    rw [hn, List.head?_append, hd, Option.some_or]
  refine ⟨fun hnil => ?_, fun c hc => hf.isDigit c ?_, fun d hd => hf.head d (hhead d hd)⟩
  · -- Otherwise all figures are zeros, the first one with them.
    rw [hnil, List.nil_append] at hn
    cases n with
    | zero => exact hf.nonempty hn
    | succ n => exact hf.head '0' (by rw [hn]; rfl) rfl
  · rw [hn]
    exact List.mem_append_left _ hc

theorem toRat_trimmed (f : Figures) : f.trimmed.toRat = f.toRat := by
  obtain ⟨n, hn⟩ := f.digits_eq_trimmed
  have hexp : f.trimmed.power + 1 - (f.trimmed.digits.length : Int) =
      f.power + 1 - f.digits.length + n := by
    rw [hn, List.length_append, List.length_replicate, show f.trimmed.power = f.power from rfl]
    push_cast
    ring
  have hread : natOfDigits f.digits = 10 ^ n * natOfDigits f.trimmed.digits := by
    rw [hn, natOfDigits_append, natOfDigits_zeros, List.length_replicate, Nat.add_zero]
  rw [toRat, toRat, hexp, hread, zpow_add₀ (by norm_num), zpow_natCast]
  push_cast
  ring

/-! ## The characters of the notations -/

theorem mem_positional {f : Figures} {c : Char} (h : c ∈ f.positional) :
    c ∈ f.digits ∨ c = '0' ∨ c = '.' := by
  have hzero : ∀ n, c ∈ List.replicate n '0' → c = '0' := fun _ hc => List.eq_of_mem_replicate hc
  unfold positional at h
  split at h
  · rcases List.mem_cons.mp h with hc | h
    · exact Or.inr (Or.inl hc)
    rcases List.mem_cons.mp h with hc | h
    · exact Or.inr (Or.inr hc)
    rcases List.mem_append.mp h with hc | hc
    · exact Or.inr (Or.inl (hzero _ hc))
    · exact Or.inl hc
  · have hfilled : ∀ whole n, c ∈ f.digits.take whole ++ List.replicate n '0' →
        c ∈ f.digits ∨ c = '0' ∨ c = '.' := by
      intro whole n hc
      rcases List.mem_append.mp hc with hc | hc
      · exact Or.inl (List.mem_of_mem_take hc)
      · exact Or.inr (Or.inl (hzero _ hc))
    dsimp only at h
    split at h
    · exact hfilled _ _ h
    · rcases List.mem_append.mp h with hc | h
      · exact hfilled _ _ hc
      rcases List.mem_cons.mp h with hc | hc
      · exact Or.inr (Or.inr hc)
      · exact Or.inl (List.mem_of_mem_drop hc)

theorem mem_scientific {f : Figures} {c : Char} (h : c ∈ f.scientific) :
    c ∈ f.digits ∨ c ∈ ['.', 'e', '+', '-'] ∨ c.isDigit = true := by
  unfold scientific at h
  rcases List.mem_append.mp h with hc | h
  · split at hc
    · exact absurd hc List.not_mem_nil
    · next hdigits =>
      rw [hdigits]
      exact Or.inl hc
    · next hdigits =>
      rw [hdigits]
      rcases List.mem_cons.mp hc with hc | hc
      · exact Or.inl (List.mem_cons.mpr (Or.inl hc))
      rcases List.mem_cons.mp hc with rfl | hc
      · exact Or.inr (Or.inl (by decide))
      · exact Or.inl (List.mem_cons_of_mem _ hc)
  · rcases List.mem_cons.mp h with rfl | h
    · exact Or.inr (Or.inl (by decide))
    rcases List.mem_cons.mp h with rfl | hc
    · refine Or.inr (Or.inl ?_)
      split <;> decide
    · exact Or.inr (Or.inr (isDigit_of_mem_toDigits hc))

end Figures

/-! ## Reading a decimal -/

namespace Decimal

variable {whole places power : List Char} {p : Int}

/-- A text with a point: the digits on both sides of it, of which there must be one, and what is read
as a power of ten. -/
theorem ofText?_point_eq (hwhole : ∀ c ∈ whole, c.isDigit = true)
    (hplaces : ∀ c ∈ places, c.isDigit = true)
    (hstop : ∀ c, power.head? = some c → c.isDigit = false) :
    ofText? (whole ++ '.' :: (places ++ power)) =
      if whole ++ places = [] then none
      else (powerOfText? power).map fun p => ⟨natOfDigits (whole ++ places), p - places.length⟩ := by
  have hpoint : ∀ c, ('.' :: (places ++ power)).head? = some c → c.isDigit = false := by
    intro c hc
    rw [← Option.some.inj hc]
    decide
  obtain ⟨htake, hdrop⟩ := Token.takeWhile_dropWhile_run hwhole hpoint
  obtain ⟨htake', hdrop'⟩ := Token.takeWhile_dropWhile_run hplaces hstop
  have hempty : (whole.isEmpty && places.isEmpty) = decide (whole ++ places = []) := by
    cases whole <;> cases places <;> rfl
  simp only [ofText?, htake, hdrop, htake', hdrop', hempty, decide_eq_true_eq]

/-- A decimal with a point: the figures on both sides of it, of which there is one at least, and a
power of ten. -/
theorem ofText?_point (hne : whole ++ places ≠ []) (hwhole : ∀ c ∈ whole, c.isDigit = true)
    (hplaces : ∀ c ∈ places, c.isDigit = true)
    (hstop : ∀ c, power.head? = some c → c.isDigit = false) (hpower : powerOfText? power = some p) :
    ofText? (whole ++ '.' :: (places ++ power)) =
      some ⟨natOfDigits (whole ++ places), p - places.length⟩ := by
  rw [ofText?_point_eq hwhole hplaces hstop, if_neg hne, hpower]
  rfl

/-- A decimal without a point. -/
theorem ofText?_noPoint (hne : whole ≠ []) (hwhole : ∀ c ∈ whole, c.isDigit = true)
    (hstop : ∀ c, power.head? = some c → c.isDigit = false ∧ c ≠ '.')
    (hpower : powerOfText? power = some p) :
    ofText? (whole ++ power) = some ⟨natOfDigits whole, p⟩ := by
  obtain ⟨htake, hdrop⟩ := Token.takeWhile_dropWhile_run hwhole fun c hc => (hstop c hc).1
  have hempty : whole.isEmpty = false := List.isEmpty_eq_false_iff.mpr hne
  rw [ofText?, htake, hdrop]
  split
  next places' power' hmatch =>
  split at hmatch
  · exact absurd rfl (hstop '.' rfl).2
  · obtain ⟨rfl, rfl⟩ := Prod.mk.inj hmatch
    rw [hempty, hpower, List.append_nil]
    exact congrArg some (congrArg (Decimal.mk _) (by simp))

/-- The power of ten that the scientific notation writes. -/
theorem powerOfText?_scientific (e : Int) :
    powerOfText? ('e' :: (if e < 0 then '-' else '+') :: Nat.toDigits 10 e.natAbs) = some e := by
  have hdigits : ((Nat.toDigits 10 e.natAbs).isEmpty ||
      !(Nat.toDigits 10 e.natAbs).all Char.isDigit) = false := by
    rw [List.isEmpty_eq_false_iff.mpr Nat.toDigits_ne_nil,
      List.all_eq_true.mpr fun _ hc => isDigit_of_mem_toDigits hc]
    rfl
  by_cases he : e < 0
  · rw [if_pos he, powerOfText?, if_pos (Or.inl rfl), if_neg (Bool.eq_false_iff.mp hdigits),
      if_pos rfl, natOfDigits_toDigits]
    exact congrArg some (by omega)
  · rw [if_neg he, powerOfText?, if_pos (Or.inl rfl), if_neg (Bool.eq_false_iff.mp hdigits),
      if_neg Bool.false_ne_true, natOfDigits_toDigits]
    exact congrArg some (by omega)

end Decimal

namespace Figures

variable {f : Figures}

/-! ## The positional notation -/

/-- Either the figures reach no further than the units, and zeros fill the places up to these, or
there is a point with figures behind it. -/
theorem Proper.positional_cases (hf : f.Proper) :
    (∃ n, f.positional = f.digits ++ List.replicate n '0' ∧ f.power + 1 = f.digits.length + n) ∨
      ∃ whole places, f.positional = whole ++ '.' :: places ∧ whole ≠ [] ∧
        (∀ c ∈ whole, c.isDigit = true) ∧ (∀ c ∈ places, c.isDigit = true) ∧
        natOfDigits (whole ++ places) = natOfDigits f.digits ∧
        (places.length : Int) = f.digits.length - 1 - f.power := by
  have hzeros : ∀ n, ∀ c ∈ List.replicate n '0', c.isDigit = true := by
    intro n c hc
    rw [List.eq_of_mem_replicate hc]
    decide
  unfold positional
  by_cases hneg : f.power < 0
  · rw [if_pos hneg]
    refine Or.inr ⟨['0'], List.replicate (-f.power - 1).toNat '0' ++ f.digits, rfl,
      List.cons_ne_nil _ _, hzeros 1, ?_, ?_, ?_⟩
    · intro c hc
      rcases List.mem_append.mp hc with hc | hc
      · exact hzeros _ c hc
      · exact hf.isDigit c hc
    · -- The zeros in front count nothing.
      rw [natOfDigits_append, natOfDigits_append, natOfDigits_zeros,
        show natOfDigits ['0'] = 0 from rfl]
      omega
    · rw [List.length_append, List.length_replicate]
      push_cast
      omega
  · rw [if_neg hneg]
    dsimp only
    split
    · next hdrop =>
      have hlen : f.digits.length ≤ f.power.toNat + 1 := List.drop_eq_nil_iff.mp hdrop
      rw [List.take_of_length_le hlen]
      exact Or.inl ⟨_, rfl, by omega⟩
    · next hdrop =>
      have hlen : f.power.toNat + 1 < f.digits.length :=
        Nat.lt_of_not_le fun hle => hdrop (List.drop_eq_nil_iff.mpr hle)
      rw [Nat.sub_eq_zero_of_le hlen.le, List.replicate_zero, List.append_nil]
      refine Or.inr ⟨f.digits.take (f.power.toNat + 1), f.digits.drop (f.power.toNat + 1), rfl, ?_,
        fun c hc => hf.isDigit c (List.mem_of_mem_take hc),
        fun c hc => hf.isDigit c (List.mem_of_mem_drop hc), ?_, ?_⟩
      · rw [Ne, List.take_eq_nil_iff, not_or]
        exact ⟨Nat.succ_ne_zero _, hf.nonempty⟩
      · rw [List.take_append_drop]
      · rw [List.length_drop]
        omega

/-- The decimal that is read from a positional text with a point. -/
theorem Proper.ofText?_positional (hf : f.Proper) :
    ∃ d, Decimal.ofText? f.positional = some d ∧ d.toRat = f.toRat := by
  have hnone : Decimal.powerOfText? [] = some 0 := rfl
  have hnil : ∀ c, ([] : List Char).head? = some c → False := by
    intro c hc
    exact absurd hc (by rintro ⟨⟩)
  rcases hf.positional_cases with ⟨n, htext, hpower⟩ | ⟨whole, places, htext, hne, hwhole, hplaces,
    hread, hlen⟩
  · have hall : ∀ c ∈ f.digits ++ List.replicate n '0', c.isDigit = true := by
      intro c hc
      rcases List.mem_append.mp hc with hc | hc
      · exact hf.isDigit c hc
      · rw [List.eq_of_mem_replicate hc]
        decide
    have hparse := Decimal.ofText?_noPoint (by simp [hf.nonempty]) hall
      (fun c hc => (hnil c hc).elim) hnone
    rw [List.append_nil] at hparse
    refine ⟨_, (congrArg Decimal.ofText? htext).trans hparse, ?_⟩
    have hexp : f.power + 1 - (f.digits.length : Int) = n := by omega
    rw [Decimal.toRat_mk, toRat, hexp, natOfDigits_append, natOfDigits_zeros,
      List.length_replicate, zpow_zero, zpow_natCast]
    push_cast
    ring
  · have hsome : whole ++ places ≠ [] := List.append_ne_nil_of_left_ne_nil hne places
    have hparse := Decimal.ofText?_point hsome hwhole hplaces
      (fun c hc => (hnil c hc).elim) hnone
    rw [List.append_nil] at hparse
    refine ⟨_, (congrArg Decimal.ofText? htext).trans hparse, ?_⟩
    have hexp : (0 : Int) - places.length = f.power + 1 - f.digits.length := by omega
    rw [Decimal.toRat_mk, toRat, hexp, hread]

/-! ## The scientific notation -/

/-- One figure, perhaps a point with the others, and the power of ten. -/
theorem Proper.scientific_cases (hf : f.Proper) :
    ∃ d, d.isDigit = true ∧
      let power := 'e' :: (if f.power < 0 then '-' else '+') :: Nat.toDigits 10 f.power.natAbs
      (f.digits = [d] ∧ f.scientific = [d] ++ power) ∨
        ∃ behind, f.digits = d :: behind ∧ f.scientific = [d] ++ '.' :: (behind ++ power) := by
  obtain ⟨d, behind, hdigits⟩ := List.exists_cons_of_ne_nil hf.nonempty
  refine ⟨d, hf.isDigit d (by rw [hdigits]; exact List.mem_cons_self), ?_⟩
  unfold scientific
  rw [hdigits]
  cases behind with
  | nil => exact Or.inl ⟨rfl, rfl⟩
  | cons e behind => exact Or.inr ⟨e :: behind, rfl, rfl⟩

theorem Proper.ofText?_scientific (hf : f.Proper) :
    ∃ d, Decimal.ofText? f.scientific = some d ∧ d.toRat = f.toRat := by
  have hpower := Decimal.powerOfText?_scientific f.power
  obtain ⟨d, hd, ⟨hdigits, htext⟩ | ⟨behind, hdigits, htext⟩⟩ := hf.scientific_cases
  · have hone : ∀ c ∈ [d], c.isDigit = true := List.forall_mem_singleton.mpr hd
    have hparse := Decimal.ofText?_noPoint (List.cons_ne_nil d []) hone
      (by rintro c ⟨⟩; decide) hpower
    refine ⟨_, (congrArg Decimal.ofText? htext).trans hparse, ?_⟩
    have hexp : f.power + 1 - (f.digits.length : Int) = f.power := by
      rw [hdigits, List.length_singleton]
      push_cast
      ring
    rw [Decimal.toRat_mk, toRat, hexp, hdigits]
  · have hone : ∀ c ∈ [d], c.isDigit = true := List.forall_mem_singleton.mpr hd
    have hbehind : ∀ c ∈ behind, c.isDigit = true := fun c hc =>
      hf.isDigit c (by rw [hdigits]; exact List.mem_cons_of_mem d hc)
    have hparse := Decimal.ofText?_point (List.cons_ne_nil d behind) hone hbehind
      (by rintro c ⟨⟩; decide) hpower
    refine ⟨_, (congrArg Decimal.ofText? htext).trans hparse, ?_⟩
    have hexp : f.power + 1 - (f.digits.length : Int) = f.power - behind.length := by
      rw [hdigits, List.length_cons]
      push_cast
      ring
    rw [Decimal.toRat_mk, toRat, hexp, hdigits]
    rfl

end Figures
end Reckoner
