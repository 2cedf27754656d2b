/-
Rounding a result, as an operation on floats.

A float whose digits are cut is finite and not zero, and what it is rounded to is finite, not zero
and of the same sign. Rounding again changes nothing, so the text of a result stands for a float
that has this very text as a result.
-/
import Reckoner.Proofs.Decimal.Rounded
import Reckoner.RealText

set_option autoImplicit false

namespace Reckoner

open Binary64 RoundingInterval

/-- A number of moderate size has a nearest float with a significand. -/
theorem Binary64.IsRounding.finite {v : ℚ} {c : Binary64} (h : IsRounding v c)
    (hlow : 2 ^ (-1075 : Int) < v) (hhigh : v < 2 ^ (1023 : Int)) :
    ∃ m q, c = .finite false m q ∧ 0 < m := by
  obtain ⟨k, r, hbinade, hnearest, rfl⟩ := h
  have hpos := two_zpow_pos k
  obtain ⟨t, rfl⟩ : ∃ t, v = t * 2 ^ k := ⟨v / 2 ^ k, by field_simp⟩
  rw [mul_div_cancel_right₀ _ hpos.ne'] at hnearest
  -- More than half of the smallest last place does not go to zero.
  have hr : 0 < r := by
    have hhalf : 1 < 2 * t := by
      rcases hbinade.le with rfl | hle
      · have hstep : (2 : ℚ) ^ (-1074 : Int) = 2 * 2 ^ (-1075 : Int) :=
          zpow_one_add₀ two_ne_zero (-1075)
        have hpos' := two_zpow_pos (-1075)
        rw [hstep] at hlow
        generalize (2 : ℚ) ^ (-1075 : Int) = p at hlow hpos'
        nlinarith
      · have hlarge := le_of_mul_le_mul_right hle hpos
        linarith
    have hone : (0 : ℚ) < r := by linarith [hnearest.high]
    exact_mod_cast hone
  have hk : k < 971 := by
    rcases hbinade.le with rfl | hle
    · decide
    · rw [← zpow_natCast, ← zpow_add₀ (by norm_num)] at hle
      have := (zpow_lt_zpow_iff_right₀ (by norm_num)).mp (hle.trans_lt hhigh)
      omega
  by_cases hfits : r < 2 ^ 53
  · exact ⟨r, k, by rw [ofRounded, if_pos hfits, if_pos hk.le], hr⟩
  · exact ⟨2 ^ 52, k + 1, by rw [ofRounded, if_neg hfits, if_pos hk], by decide⟩

/-! ## Rounded results -/

/-- The floats whose digits are cut. -/
def InBand (x : Float) : Prop :=
  1e-9 < x.abs ∧ x.abs < 1e15

section Rounding

variable {x : Float} {negative : Bool} {m : Nat} {q : Int}

theorem roundResult_of_not_inBand (h : ¬InBand x) : roundResult x = x :=
  if_neg h

theorem roundResult_of_inBand (h : InBand x) (hx : ofFloat x = .finite negative m q) :
    roundResult x = if negative then -(Decimal.rounded 16 (dyadic m q)).toFloat
      else (Decimal.rounded 16 (dyadic m q)).toFloat := by
  rw [roundResult, hx]
  exact if_pos h

theorem finite_of_inBand (h : InBand x) :
    ∃ negative m q, ofFloat x = .finite negative m q ∧ 0 < m ∧ q ≤ -3 := by
  have hlow : ofFloat (1e-9 : Float) = .finite false 4835703278458517 (-82) := by decide +kernel
  have hhigh : ofFloat (1e15 : Float) = .finite false 8000000000000000 (-3) := by decide +kernel
  exact finite_of_lt_abs (by decide) (by decide) hlow hhigh h.1 h.2

/-- The sign of a result is kept. -/
theorem ofFloat_roundResult_of_toFloat {n : Nat} {r : Int} (h : InBand x)
    (hx : ofFloat x = .finite negative m q)
    (hdecimal : ofFloat (Decimal.rounded 16 (dyadic m q)).toFloat = .finite false n r) :
    ofFloat (roundResult x) = .finite negative n r := by
  rw [roundResult_of_inBand h hx]
  cases negative with
  | false => exact hdecimal
  | true =>
    rw [if_pos rfl, ofFloat_neg, hdecimal]
    rfl

/-- What a float is rounded to has the decimal in its interval. -/
theorem ofFloat_roundResult_of_inBand (h : InBand x) (hx : ofFloat x = .finite negative m q) :
    ∃ n r, ofFloat (roundResult x) = .finite negative n r ∧ 0 < n ∧ Canonical n r ∧
      (around n r).Contains (Decimal.rounded 16 (dyadic m q)).toRat := by
  obtain ⟨negative', m', q', hx', hm, hq⟩ := finite_of_inBand h
  rw [hx] at hx'
  obtain ⟨rfl, rfl, rfl⟩ := Binary64.finite.inj hx'
  have hcanonical := canonical_of_ofFloat hx
  obtain ⟨hlow, hhigh⟩ := Decimal.rounded_bounds (ten_zpow_le_dyadic hcanonical hm)
  -- The decimal is within a factor of two of the float, so it is neither zero nor near the ends.
  have hsignificand : 0 < (Decimal.rounded 16 (dyadic m q)).significand := by
    refine Nat.pos_of_ne_zero fun hzero => ?_
    rw [Decimal.toRat_eq, hzero, Nat.cast_zero, zero_mul, mul_zero] at hlow
    exact absurd hlow (not_lt.mpr (dyadic_pos hm q).le)
  have hround := Decimal.isRounding_toFloat hsignificand
  have hbelow : 2 ^ (-1075 : Int) < (Decimal.rounded 16 (dyadic m q)).toRat := by
    have hsmallest : 2 * (2 : ℚ) ^ (-1075 : Int) ≤ dyadic m q :=
      (zpow_one_add₀ two_ne_zero (-1075)).symm.trans_le (smallest_le_dyadic hcanonical hm)
    generalize (2 : ℚ) ^ (-1075 : Int) = p at hsmallest ⊢
    linarith
  have habove : (Decimal.rounded 16 (dyadic m q)).toRat < 2 ^ (1023 : Int) := by
    have hm53 : (m : ℚ) ≤ 2 ^ (53 : Int) := by exact_mod_cast hcanonical.lt.le
    refine lt_of_le_of_lt hhigh ?_
    calc 2 * dyadic m q = 2 ^ (1 : Int) * (m * 2 ^ q) := by rw [dyadic_eq, zpow_one]
      _ ≤ 2 ^ (1 : Int) * (2 ^ (53 : Int) * 2 ^ (-3 : Int)) := by
        refine mul_le_mul_of_nonneg_left ?_ (two_zpow_pos 1).le
        exact mul_le_mul hm53 (zpow_le_zpow_right₀ (by norm_num) hq) (two_zpow_pos q).le
          (two_zpow_pos 53).le
      _ = 2 ^ (51 : Int) := by
        rw [← zpow_add₀ (by norm_num), ← zpow_add₀ (by norm_num)]
        rfl
      _ < 2 ^ (1023 : Int) := zpow_lt_zpow_right₀ (by norm_num) (by decide)
  obtain ⟨n, r, hcontent, hn⟩ := hround.finite hbelow habove
  refine ⟨n, r, ofFloat_roundResult_of_toFloat h hx hcontent, hn, canonical_of_ofFloat hcontent, ?_⟩
  rw [hcontent] at hround
  exact contains_of_isRounding hn hround

/-- Rounding again changes nothing. -/
theorem roundResult_roundResult (x : Float) : roundResult (roundResult x) = roundResult x := by
  by_cases h : InBand x
  · obtain ⟨negative, m, q, hx, hm, -⟩ := finite_of_inBand h
    obtain ⟨n, r, hy, hn, hcanonical, hcontains⟩ := ofFloat_roundResult_of_inBand h hx
    by_cases h' : InBand (roundResult x)
    · have hagain := contains_rounded (canonical_of_ofFloat hx) hm hcanonical hn hcontains
      have hholds := holds_iff.mpr hagain
      have hread := (holds_iff_toFloat (significand_pos_of_holds hn hholds) hcanonical hn).mp hholds
      exact eq_of_ofFloat ((ofFloat_roundResult_of_toFloat h' hy hread).trans hy.symm)
    · exact roundResult_of_not_inBand h'
  · rw [roundResult_of_not_inBand h, roundResult_of_not_inBand h]

/-- A finite result is rounded to a finite one of the same sign. -/
theorem exists_ofFloat_roundResult (hx : ofFloat x = .finite negative m q) :
    ∃ n r, ofFloat (roundResult x) = .finite negative n r := by
  by_cases h : InBand x
  · obtain ⟨n, r, hy, -⟩ := ofFloat_roundResult_of_inBand h hx
    exact ⟨n, r, hy⟩
  · exact ⟨m, q, by rw [roundResult_of_not_inBand h, hx]⟩

end Rounding

end Reckoner
