/-
Rounding to the nearest float.

The model of floats rounds a significand together with two bits that say where between it and the
next one the exact number lies. Shifting places out keeps this information, so in the end the
significand is rounded as the exact number is: to the nearest whole number of last places, and to
the even one of two.

How large a last place is depends on the binade that the number lies in, and on nothing else. So the
content of the result is determined by the number, however it was computed.
-/
import Reckoner.Proofs.Binary64.Content

set_option autoImplicit false

namespace Reckoner

theorem two_zpow_pos (k : Int) : (0 : ℚ) < 2 ^ k :=
  zpow_pos (by norm_num) k

namespace Binary64

open Float.Model Float.Model.UnpackedFloat

/-! ## What the residual bits say -/

/-- The fractions of a last place that an accuracy stands for: none, less than a half, a half, or
more. -/
def Locates : Accuracy → ℚ → Prop
  | .exact, f => f = 0
  | .inexact .lt, f => 0 < f ∧ 2 * f < 1
  | .inexact .eq, f => 2 * f = 1
  | .inexact .gt, f => 1 < 2 * f ∧ f < 1

/-- The numbers that a significand with residual bits stands for. -/
def Represents (em : ExtendedMantissa) (t : ℚ) : Prop :=
  Locates em.accuracy (t - em.mantissa)

theorem represents_ofMantissaAndAccuracy {m : Nat} {a : Accuracy} {t : ℚ} (h : Locates a (t - m)) :
    Represents (.ofMantissaAndAccuracy m a) t := by
  cases a with
  | exact => exact h
  | inexact order => cases order <;> exact h

/-- What is shifted out becomes the larger part of the fraction. -/
theorem Locates.shift {roundBit stickyBit bit : Bool} {m n : Nat} {f g : ℚ}
    (h : Locates (ExtendedMantissa.mk m roundBit stickyBit).accuracy f)
    (hg : 2 * g = (bit.toNat : ℚ) + f) :
    Locates (ExtendedMantissa.mk n bit (roundBit || stickyBit)).accuracy g := by
  cases roundBit <;> cases stickyBit <;> cases bit <;>
    simp only [ExtendedMantissa.accuracy, Locates, Bool.or_false, Bool.or_true, Bool.toNat_false,
      Bool.toNat_true, Nat.cast_zero, Nat.cast_one] at h hg ⊢ <;>
    grind

/-- Shifting one place out halves the number. -/
theorem Represents.shiftRightOne {em : ExtendedMantissa} {t : ℚ} (h : Represents em t) :
    Represents em.shiftRightOne (t / 2) := by
  rcases em with ⟨m, roundBit, stickyBit⟩
  have hbit : (m % 2 != 0).toNat = m % 2 := by
    rcases Nat.mod_two_eq_zero_or_one m with hparity | hparity <;> rw [hparity] <;> rfl
  have hparts : (m : ℚ) = 2 * (m / 2 : Nat) + (m % 2 : Nat) := by
    exact_mod_cast (Nat.div_add_mod m 2).symm
  have hfraction : 2 * (t / 2 - (m / 2 : Nat)) = ((m % 2 != 0).toNat : ℚ) + (t - m) := by
    rw [hbit]
    linarith
  exact Locates.shift h hfraction

theorem Represents.shiftRight {em : ExtendedMantissa} {t : ℚ} (h : Represents em t) (n : Nat) :
    Represents (em >>> n) (t / 2 ^ n) := by
  change Represents (n.repeat ExtendedMantissa.shiftRightOne em) _
  induction n with
  | zero =>
    rw [pow_zero, div_one]
    exact h
  | succ n ih =>
    rw [Nat.repeat, pow_succ, ← div_div]
    exact ih.shiftRightOne

theorem Represents.bounds {em : ExtendedMantissa} {t : ℚ} (h : Represents em t) :
    (em.mantissa : ℚ) ≤ t ∧ t < em.mantissa + 1 := by
  rcases em with ⟨m, roundBit, stickyBit⟩
  cases roundBit <;> cases stickyBit <;>
    simp only [Represents, ExtendedMantissa.accuracy, Locates] at h ⊢ <;>
    grind

/-! ## The nearest significand -/

/-- The whole number that is nearest to `t`, and the even one if there are two. -/
structure IsNearest (t : ℚ) (r : Nat) : Prop where
  low : 2 * (r : ℚ) - 1 ≤ 2 * t
  high : 2 * t ≤ 2 * (r : ℚ) + 1
  strict : r % 2 = 1 → 2 * (r : ℚ) - 1 < 2 * t ∧ 2 * t < 2 * (r : ℚ) + 1

theorem IsNearest.unique {t : ℚ} {r r' : Nat} (h : IsNearest t r) (h' : IsNearest t r') :
    r = r' := by
  -- Two different ones are neighbours with `t` half way between them, and one of them is odd.
  have hstep : ∀ {n n' : Nat}, IsNearest t n → IsNearest t n' → ¬n < n' := by
    intro n n' hn hn' hlt
    have hle : (n : ℚ) + 1 ≤ n' := by exact_mod_cast hlt
    have hge : (n' : ℚ) ≤ n + 1 := by linarith [hn.high, hn'.low]
    have hsucc : n' = n + 1 := by
      have : n' ≤ n + 1 := by exact_mod_cast hge
      omega
    rcases Nat.mod_two_eq_zero_or_one n with heven | hodd
    · have hodd' : n' % 2 = 1 := by omega
      linarith [(hn'.strict hodd').1, hn.high]
    · linarith [(hn.strict hodd).2, hn'.low]
  have hnot := hstep h h'
  have hnot' := hstep h' h
  omega

theorem Represents.isNearest {em : ExtendedMantissa} {t : ℚ} (h : Represents em t) :
    IsNearest t em.roundedMantissa := by
  rcases em with ⟨m, roundBit, stickyBit⟩
  cases roundBit <;> cases stickyBit <;>
    simp only [Represents, ExtendedMantissa.accuracy, Locates, ExtendedMantissa.roundedMantissa,
      Accuracy.roundToNearestEven] at h ⊢
  · refine ⟨?_, ?_, fun _ => ⟨?_, ?_⟩⟩ <;> linarith
  · obtain ⟨hlow, hhigh⟩ := h
    refine ⟨?_, ?_, fun _ => ⟨?_, ?_⟩⟩ <;> linarith
  · -- Half way between two significands, the result is even.
    rcases Nat.mod_two_eq_zero_or_one m with hparity | hparity
    · rw [hparity, Nat.add_zero]
      exact ⟨by linarith, by linarith, fun hodd => by omega⟩
    · rw [hparity]
      exact ⟨by push_cast; linarith, by push_cast; linarith, fun hodd => by omega⟩
  · obtain ⟨hlow, hhigh⟩ := h
    refine ⟨?_, ?_, fun _ => ⟨?_, ?_⟩⟩ <;> push_cast <;> linarith

/-! ## Binades -/

/-- Where the floats around `v` have their last place: as low as 53 places allow, but not below the
smallest exponent. -/
structure InBinade (v : ℚ) (k : Int) : Prop where
  smallest : -1074 ≤ k
  lt : v < 2 ^ 53 * 2 ^ k
  le : k = -1074 ∨ 2 ^ 52 * 2 ^ k ≤ v

theorem InBinade.unique {v : ℚ} {k k' : Int} (h : InBinade v k) (h' : InBinade v k') : k = k' := by
  -- In a higher binade the number would be as large as the bound of the lower one.
  have hstep : ∀ {i j : Int}, InBinade v i → InBinade v j → ¬i < j := by
    intro i j hi hj hlt
    rcases hj.le with hsmallest | hle
    · have := hi.smallest
      omega
    · have hpow : (2 : ℚ) ^ (i + 1) ≤ 2 ^ j := zpow_le_zpow_right₀ (by norm_num) (by omega)
      rw [zpow_add_one₀ (by norm_num)] at hpow
      have hmul : (2 : ℚ) ^ 53 * 2 ^ i ≤ 2 ^ 52 * 2 ^ j := by linarith
      exact absurd hi.lt (not_lt.mpr (hmul.trans hle))
  have hnot := hstep h h'
  have hnot' := hstep h' h
  omega

/-- The content of `r` last places in the binade `k`. A carry goes to the next binade, and beyond
the last one it is infinite. -/
def ofRounded (k : Int) (r : Nat) : Binary64 :=
  if r < 2 ^ 53 then if k ≤ 971 then .finite false r k else .infinite false
  else if k < 971 then .finite false (2 ^ 52) (k + 1) else .infinite false

/-- The content of the float that is nearest to `v`. -/
def IsRounding (v : ℚ) (c : Binary64) : Prop :=
  ∃ k r, InBinade v k ∧ IsNearest (v / 2 ^ k) r ∧ c = ofRounded k r

/-- There is only one nearest float. -/
theorem IsRounding.unique {v : ℚ} {c c' : Binary64} (h : IsRounding v c) (h' : IsRounding v c') :
    c = c' := by
  obtain ⟨k, r, hk, hr, rfl⟩ := h
  obtain ⟨k', r', hk', hr', rfl⟩ := h'
  obtain rfl := hk.unique hk'
  rw [hr.unique hr']

/-! ## The model's rounding -/

theorem targetExponent_eq (m : Nat) (e : Int) :
    Format.binary64.targetExponent (totalExponent m e) = max ((m.log2 : Int) + e - 52) (-1074) := by
  have hplaces : Format.binary64.mantissaBits = 53 := rfl
  have hsmallest : Format.binary64.minExponent = -1074 := rfl
  rw [Format.targetExponent, hsmallest, hplaces, totalExponent]
  push_cast
  congr 1
  omega

theorem shiftRight_mantissa (em : ExtendedMantissa) (n : Nat) :
    (em >>> n).mantissa = em.mantissa / 2 ^ n := by
  change (n.repeat ExtendedMantissa.shiftRightOne em).mantissa = _
  induction n with
  | zero =>
    rw [pow_zero, Nat.div_one]
    rfl
  | succ n ih =>
    rw [Nat.repeat, ExtendedMantissa.shiftRightOne, ih, Nat.div_div_eq_div_mul, ← pow_succ]

/-- A significand that fits stays as it is. -/
theorem shiftToTargetExponent_of_lt {m : Nat} {e : Int} (hm : m < 2 ^ 53) (he : -1074 ≤ e) :
    shiftToTargetExponent Format.binary64 m e .exact = (⟨m, false, false⟩, e) := by
  have hlog : m.log2 ≤ 52 := by
    rcases Nat.eq_zero_or_pos m with rfl | hpos
    · exact Nat.zero_le _
    · exact Nat.le_of_lt_succ ((Nat.log2_lt (Nat.ne_of_gt hpos)).mpr hm)
  have hshift : (Format.binary64.targetExponent (totalExponent m e) - e).toNat = 0 := by
    rw [targetExponent_eq]
    omega
  rw [shiftToTargetExponent, shiftToExponent, hshift]
  exact Prod.ext rfl (Int.add_zero e)

/-- A carry into one place more is shifted out again. -/
theorem shiftToTargetExponent_carry {e : Int} (he : -1074 ≤ e) :
    shiftToTargetExponent Format.binary64 (2 ^ 53) e .exact = (⟨2 ^ 52, false, false⟩, e + 1) := by
  have hshift : (Format.binary64.targetExponent (totalExponent (2 ^ 53) e) - e).toNat = 1 := by
    rw [targetExponent_eq, Nat.log2_two_pow]
    omega
  rw [shiftToTargetExponent, shiftToExponent, hshift]
  rfl

theorem roundWithAccuracy_eq (s : Sign) (m : Nat) (e : Int) (a : Accuracy) :
    roundWithAccuracy Format.binary64 s m e a =
      let first := shiftToTargetExponent Format.binary64 m e a
      let last := shiftToTargetExponent Format.binary64 first.1.roundedMantissa first.2 .exact
      if h : last.1.mantissa = 0 then .zero s
      else .finite s last.1.mantissa last.2 (Nat.pos_of_ne_zero h) := rfl

/-- What is packed once the significand is rounded. -/
theorem ofFloat_roundWithAccuracy {m r : Nat} {e k : Int} {a : Accuracy}
    (hfirst : (shiftToTargetExponent Format.binary64 m e a).1.roundedMantissa = r ∧
      (shiftToTargetExponent Format.binary64 m e a).2 = k)
    (hk : -1074 ≤ k) (hle : r ≤ 2 ^ 53) (hge : k = -1074 ∨ 2 ^ 52 ≤ r) :
    ofFloat (.ofModel (Float.Model.pack (roundWithAccuracy Format.binary64 .positive m e a))) =
      ofRounded k r := by
  rw [roundWithAccuracy_eq]
  dsimp only
  simp only [hfirst.1, hfirst.2]
  rcases Nat.lt_or_eq_of_le hle with hlt | hcarry
  · simp only [shiftToTargetExponent_of_lt hlt hk]
    rw [ofRounded, if_pos hlt]
    by_cases hzero : r = 0
    · rw [dif_pos hzero, ofFloat_pack_zero]
      have hsmallest : k = -1074 := by omega
      rw [if_pos (by omega), hzero, hsmallest]
      rfl
    · rw [dif_neg hzero]
      by_cases hfits : k ≤ 971
      · rw [if_pos hfits]
        refine ofFloat_pack_finite _ ?_
        by_cases hnormal : 2 ^ 52 ≤ r
        · exact Or.inr ⟨hnormal, hlt, hk, hfits⟩
        · exact Or.inl ⟨by omega, by omega⟩
      · rw [if_neg hfits]
        exact ofFloat_pack_overflow _ (by omega)
  · simp only [hcarry, shiftToTargetExponent_carry hk]
    rw [ofRounded, if_neg (lt_irrefl _), dif_neg (by decide)]
    by_cases hfits : k < 971
    · rw [if_pos hfits]
      exact ofFloat_pack_finite _ (Or.inr ⟨le_refl _, by decide, by omega, by omega⟩)
    · rw [if_neg hfits]
      exact ofFloat_pack_overflow _ (by omega)

/-- The first shift goes to the places of the binade, and keeps what the number is. -/
theorem exists_shiftToTargetExponent {v : ℚ} {m : Nat} {e : Int} {a : Accuracy}
    (hv : Locates a (v / 2 ^ e - m)) (hplaces : 52 ≤ m.log2 ∨ e ≤ -1074) :
    ∃ em k, shiftToTargetExponent Format.binary64 m e a = (em, k) ∧ Represents em (v / 2 ^ k) ∧
      -1074 ≤ k ∧ em.mantissa < 2 ^ 53 ∧ (k = -1074 ∨ 2 ^ 52 ≤ em.mantissa) := by
  obtain ⟨k, hk⟩ : ∃ k, k = max ((m.log2 : Int) + e - 52) (-1074) := ⟨_, rfl⟩
  obtain ⟨n, hn⟩ : ∃ n : Nat, e + (n : Int) = k := ⟨(k - e).toNat, by omega⟩
  obtain ⟨em, hem⟩ : ∃ em, em = ExtendedMantissa.ofMantissaAndAccuracy m a >>> n := ⟨_, rfl⟩
  have hshift : shiftToTargetExponent Format.binary64 m e a = (em, k) := by
    have hamount : (k - e).toNat = n := by omega
    rw [shiftToTargetExponent, shiftToExponent, targetExponent_eq, ← hk, hamount, hn, hem]
  have hmantissa : em.mantissa = m / 2 ^ n := by
    rw [hem, shiftRight_mantissa]
    cases a with
    | exact => rfl
    | inexact order => cases order <;> rfl
  refine ⟨em, k, hshift, ?_, by omega, ?_, ?_⟩
  · have hpow : (2 : ℚ) ^ k = 2 ^ e * 2 ^ n := by
      rw [← hn, zpow_add₀ (by norm_num), zpow_natCast]
    rw [hem, hpow, ← div_div]
    exact (represents_ofMantissaAndAccuracy hv).shiftRight n
  · have hlog : m < 2 ^ (53 + n) :=
      lt_of_lt_of_le Nat.lt_log2_self (Nat.pow_le_pow_right (by decide) (by omega))
    rw [hmantissa, Nat.div_lt_iff_lt_mul (Nat.two_pow_pos n), ← pow_add]
    exact hlog
  · by_cases hsmallest : k = -1074
    · exact Or.inl hsmallest
    · have hlog : m.log2 = 52 + n := by omega
      have hm : m ≠ 0 := by
        rintro rfl
        rw [Nat.log2_zero] at hlog
        omega
      refine Or.inr ?_
      rw [hmantissa, Nat.le_div_iff_mul_le (Nat.two_pow_pos n), ← pow_add, ← hlog]
      exact Nat.log2_self_le hm

/-- Rounding gives the nearest float, if the significand has at least as many places as the result
or the exponent is as small as any. -/
theorem isRounding_roundWithAccuracy {v : ℚ} {m : Nat} {e : Int} {a : Accuracy}
    (hv : Locates a (v / 2 ^ e - m)) (hplaces : 52 ≤ m.log2 ∨ e ≤ -1074) :
    IsRounding v (ofFloat (.ofModel
      (Float.Model.pack (roundWithAccuracy Format.binary64 .positive m e a)))) := by
  obtain ⟨em, k, hfirst, hrep, hsmallest, hlt, hge⟩ := exists_shiftToTargetExponent hv hplaces
  obtain ⟨hlow, hhigh⟩ := hrep.bounds
  have hnearest := hrep.isNearest
  have hpos := two_zpow_pos k
  have hlt' : (em.mantissa : ℚ) + 1 ≤ 2 ^ 53 := by exact_mod_cast hlt
  have hbinade : InBinade v k := by
    refine ⟨hsmallest, ?_, hge.imp_right fun h => ?_⟩
    · rw [← div_lt_iff₀ hpos]
      linarith
    · have h' : (2 : ℚ) ^ 52 ≤ em.mantissa := by exact_mod_cast h
      rw [← le_div_iff₀ hpos]
      linarith
  refine ⟨k, em.roundedMantissa, hbinade, hnearest,
    ofFloat_roundWithAccuracy ⟨by rw [hfirst], by rw [hfirst]⟩ hsmallest ?_ ?_⟩
  · have hround : (em.roundedMantissa : ℚ) < 2 ^ 53 + 1 := by linarith [hnearest.low]
    have hround' : em.roundedMantissa < 2 ^ 53 + 1 := by exact_mod_cast hround
    omega
  · refine hge.imp_right fun h => ?_
    have h' : (2 : ℚ) ^ 52 ≤ em.mantissa := by exact_mod_cast h
    have hround : (2 : ℚ) ^ 52 < em.roundedMantissa + 1 := by linarith [hnearest.high]
    have hround' : 2 ^ 52 < em.roundedMantissa + 1 := by exact_mod_cast hround
    omega

end Binary64
end Reckoner
