/-
The float of a decimal.

A decimal of few digits and a small exponent is a product or a quotient of two numbers that are
floats themselves, and is rounded once. Any other decimal is multiplied out, or divided, in whole
numbers. Both ways give the float nearest to the decimal, and so do the two that only look at the
exponent because it is far too large or far too small.
-/
import Reckoner.Proofs.Binary64.Rounding
import Reckoner.Proofs.Decimal.Grid

set_option autoImplicit false

namespace Reckoner

namespace Binary64

open Float.Model Float.Model.UnpackedFloat

/-! ## Products and quotients -/

section Operations

variable {m n : Nat} {q r : Int} (hm : 0 < m) (hn : 0 < n)

/-- A product is rounded once, if the product of the significands has enough places. -/
theorem isRounding_mul (hplaces : 52 ≤ (m * n).log2) :
    IsRounding (m * 2 ^ q * (n * 2 ^ r))
      (ofFloat (.ofModel (Float.Model.pack (UnpackedFloat.mul Format.binary64
        (.finite .positive m q hm) (.finite .positive n r hn))))) := by
  refine isRounding_roundWithAccuracy (m := m * n) (e := q + r) (a := .exact) ?_ (Or.inl hplaces)
  have hpos := two_zpow_pos (q + r)
  have hvalue : (m : ℚ) * 2 ^ q * (n * 2 ^ r) = (m * n) * 2 ^ (q + r) := by
    rw [zpow_add₀ (by norm_num)]
    ring
  rw [Locates, hvalue, mul_div_cancel_right₀ _ hpos.ne', Nat.cast_mul, sub_self]

/-- A proper fraction lies where the comparison of its double says. -/
theorem locates_accuracyOfFraction {i j : Nat} (hlt : i < j) :
    Locates (accuracyOfFraction i j) ((i : ℚ) / j) := by
  have hj : (0 : ℚ) < j := by exact_mod_cast Nat.zero_lt_of_lt hlt
  unfold accuracyOfFraction
  by_cases hzero : i = 0
  · rw [if_pos hzero, hzero, Nat.cast_zero, zero_div]
    rfl
  have hi : (0 : ℚ) < i / j := div_pos (by exact_mod_cast Nat.pos_of_ne_zero hzero) hj
  rw [if_neg hzero]
  cases hcompare : compare (2 * i) j with
  | lt =>
    have hhalf : (2 : ℚ) * i < j := by exact_mod_cast compare_lt_iff_lt.mp hcompare
    refine ⟨hi, ?_⟩
    rw [← mul_div_assoc, div_lt_one hj]
    exact hhalf
  | eq =>
    have hhalf : (2 : ℚ) * i = j := by exact_mod_cast compare_eq_iff_eq.mp hcompare
    rw [Locates, ← mul_div_assoc, hhalf, div_self hj.ne']
  | gt =>
    have hhalf : (j : ℚ) < 2 * i := by exact_mod_cast compare_gt_iff_gt.mp hcompare
    refine ⟨?_, ?_⟩
    · rw [← mul_div_assoc, one_lt_div hj]
      exact hhalf
    · rw [div_lt_one hj]
      exact_mod_cast hlt

/-- A quotient is rounded once: the dividend is shifted so far that the quotient has enough places.
-/
theorem isRounding_div :
    IsRounding (m * 2 ^ q / (n * 2 ^ r))
      (ofFloat (.ofModel (Float.Model.pack (UnpackedFloat.div Format.binary64
        (.finite .positive m q hm) (.finite .positive n r hn))))) := by
  obtain ⟨k, hk⟩ : ∃ k, k = min (q - r)
      (Format.binary64.targetExponent (totalExponent m q - totalExponent n r)) := ⟨_, rfl⟩
  obtain ⟨i, hi⟩ : ∃ i : Nat, (i : Int) = q - r - k := ⟨(q - r - k).toNat, by omega⟩
  have hcore : divCore Format.binary64 m q n r =
      (m * 2 ^ i / n, k, accuracyOfFraction (m * 2 ^ i % n) n) := by
    have hshift : (q - r - k).toNat = i := by omega
    rw [divCore, ← hk, hshift, Nat.shiftLeft_eq]
  have hdiv : UnpackedFloat.div Format.binary64 (.finite .positive m q hm)
      (.finite .positive n r hn) = roundWithAccuracy Format.binary64 .positive (m * 2 ^ i / n) k
        (accuracyOfFraction (m * 2 ^ i % n) n) := by
    change (let (m, e, acc) := divCore Format.binary64 m q n r
      roundWithAccuracy Format.binary64 .positive m e acc) = _
    rw [hcore]
  rw [hdiv]
  have hnpos : (0 : ℚ) < n := by exact_mod_cast hn
  refine isRounding_roundWithAccuracy ?_ ?_
  · -- What is left of the division is the fraction.
    have hvalue : (m : ℚ) * 2 ^ q / (n * 2 ^ r) / 2 ^ k = (m * 2 ^ i : Nat) / n := by
      have hpow : (2 : ℚ) ^ q = 2 ^ r * 2 ^ k * 2 ^ i := by
        rw [← zpow_natCast, ← zpow_add₀ (by norm_num), ← zpow_add₀ (by norm_num)]
        congr 1
        omega
      have hr := (two_zpow_pos r).ne'
      have hk' := (two_zpow_pos k).ne'
      rw [hpow]
      push_cast
      field_simp
    have hparts : ((m * 2 ^ i : Nat) : ℚ) = n * (m * 2 ^ i / n : Nat) + (m * 2 ^ i % n : Nat) := by
      exact_mod_cast (Nat.div_add_mod (m * 2 ^ i) n).symm
    have hfraction : (m : ℚ) * 2 ^ q / (n * 2 ^ r) / 2 ^ k - (m * 2 ^ i / n : Nat) =
        (m * 2 ^ i % n : Nat) / n := by
      rw [hvalue, hparts]
      field_simp
      ring
    rw [hfraction]
    exact locates_accuracyOfFraction (Nat.mod_lt _ hn)
  · -- A target above the smallest exponent is so low that the quotient fills all places.
    have htarget : Format.binary64.targetExponent (totalExponent m q - totalExponent n r) =
        max ((m.log2 : Int) + q - (n.log2 + r) - 53) (-1074) := by
      have hplaces : Format.binary64.mantissaBits = 53 := rfl
      have hsmallest : Format.binary64.minExponent = -1074 := rfl
      rw [Format.targetExponent, hsmallest, hplaces, totalExponent, totalExponent]
      push_cast
      congr 1
      omega
    by_cases hsmallest : k ≤ -1074
    · exact Or.inr hsmallest
    have hshift : 53 + n.log2 ≤ m.log2 + i := by omega
    have hquotient : 2 ^ 52 * n ≤ m * 2 ^ i :=
      calc 2 ^ 52 * n ≤ 2 ^ 52 * 2 ^ (n.log2 + 1) := Nat.mul_le_mul_left _ Nat.lt_log2_self.le
        _ = 2 ^ (53 + n.log2) := by rw [← pow_add]; congr 1; omega
        _ ≤ 2 ^ (m.log2 + i) := Nat.pow_le_pow_right (by decide) hshift
        _ = 2 ^ m.log2 * 2 ^ i := pow_add _ _ _
        _ ≤ m * 2 ^ i := Nat.mul_le_mul_right _ (Nat.log2_self_le (Nat.ne_of_gt hm))
    -- So the quotient has 53 places.
    have hlarge : 2 ^ 52 ≤ m * 2 ^ i / n := (Nat.le_div_iff_mul_le hn).mpr hquotient
    have hne : m * 2 ^ i / n ≠ 0 := by omega
    exact Or.inl ((Nat.le_log2 hne).mpr hlarge)

include hm hn

/-- A product of two floats is that of their contents. -/
theorem ofFloat_mul {x y : Float} (hx : ofFloat x = .finite false m q)
    (hy : ofFloat y = .finite false n r) (hplaces : 52 ≤ (m * n).log2) :
    IsRounding (m * 2 ^ q * (n * 2 ^ r)) (ofFloat (x * y)) := by
  have hmul : x * y = .ofModel (Float.Model.pack
      (UnpackedFloat.mul Format.binary64 x.toModel.unpack y.toModel.unpack)) := rfl
  rw [hmul, unpack_eq, unpack_eq, hx, hy, toUnpacked_finite false hm, toUnpacked_finite false hn]
  exact isRounding_mul hm hn hplaces

/-- And so is a quotient. -/
theorem ofFloat_div {x y : Float} (hx : ofFloat x = .finite false m q)
    (hy : ofFloat y = .finite false n r) :
    IsRounding (m * 2 ^ q / (n * 2 ^ r)) (ofFloat (x / y)) := by
  have hdiv : x / y = .ofModel (Float.Model.pack
      (UnpackedFloat.div Format.binary64 x.toModel.unpack y.toModel.unpack)) := rfl
  rw [hdiv, unpack_eq, unpack_eq, hx, hy, toUnpacked_finite false hm, toUnpacked_finite false hn]
  exact isRounding_div hm hn

end Operations

/-! ## Far too large, and far too small -/

theorem exists_isNearest {t : ℚ} (ht : 0 ≤ t) : ∃ r, IsNearest t r := by
  have hlow : ((⌊t⌋₊ : Nat) : ℚ) ≤ t := Nat.floor_le ht
  have hhigh : t < (⌊t⌋₊ : Nat) + 1 := Nat.lt_floor_add_one t
  generalize ⌊t⌋₊ = n at hlow hhigh
  rcases lt_trichotomy (2 * t) (2 * n + 1) with hbelow | hhalf | habove
  · exact ⟨n, by linarith, hbelow.le, fun _ => ⟨by linarith, hbelow⟩⟩
  · -- Half way, the even one of the two neighbours.
    rcases Nat.mod_two_eq_zero_or_one n with heven | hodd
    · exact ⟨n, by linarith, hhalf.le, fun h => by omega⟩
    · refine ⟨n + 1, ?_, ?_, fun h => by omega⟩ <;> push_cast <;> linarith
  · refine ⟨n + 1, ?_, ?_, fun _ => ⟨?_, ?_⟩⟩ <;> push_cast <;> linarith

theorem isRounding_infinite {v : ℚ} (h : 2 ^ (1024 : Int) ≤ v) :
    IsRounding v (.infinite false) := by
  have hv : 0 < v := lt_of_lt_of_le (two_zpow_pos 1024) h
  have hlog : (1024 : Int) ≤ Int.log 2 v := (Int.zpow_le_iff_le_log (by decide) hv).mp h
  obtain ⟨k, hk⟩ : ∃ k, k = Int.log 2 v - 52 := ⟨_, rfl⟩
  have hbinade : InBinade v k := by
    refine ⟨by omega, ?_, Or.inr ?_⟩
    · have hlt := Int.lt_zpow_succ_log_self (R := ℚ) (b := 2) (by decide) v
      rwa [show Int.log 2 v + 1 = 53 + k by omega, zpow_add₀ (by norm_num), zpow_ofNat] at hlt
    · have hle := Int.zpow_log_le_self (R := ℚ) (b := 2) (by decide) hv
      rwa [show Int.log 2 v = 52 + k by omega, zpow_add₀ (by norm_num), zpow_ofNat] at hle
  obtain ⟨r, hr⟩ := exists_isNearest (div_nonneg hv.le (two_zpow_pos k).le)
  refine ⟨k, r, hbinade, hr, ?_⟩
  rw [ofRounded, if_neg (show ¬k ≤ 971 by omega), if_neg (show ¬k < 971 by omega), ite_self]

theorem isRounding_zero {v : ℚ} (hv : 0 ≤ v) (h : v ≤ 2 ^ (-1075 : Int)) :
    IsRounding v (.finite false 0 (-1074)) := by
  have hpos := two_zpow_pos (-1074)
  have hhalf : (2 : ℚ) ^ (-1074 : Int) = 2 * 2 ^ (-1075 : Int) :=
    zpow_one_add₀ two_ne_zero (-1075)
  have hplaces : 2 * (v / 2 ^ (-1074 : Int)) ≤ 1 := by
    rw [← mul_div_assoc, div_le_one hpos]
    linarith
  have hnonneg : 0 ≤ v / 2 ^ (-1074 : Int) := div_nonneg hv hpos.le
  have hbinade : InBinade v (-1074) := by
    refine ⟨le_refl _, ?_, Or.inl rfl⟩
    rw [← div_lt_iff₀ hpos]
    linarith
  refine ⟨-1074, 0, hbinade, ?_, rfl⟩
  generalize v / 2 ^ (-1074 : Int) = t at hplaces hnonneg
  exact ⟨by push_cast; linarith, by push_cast; linarith, fun h => absurd h (by decide)⟩

/-! ## Numbers that are floats themselves -/

/-- A whole number of at most 53 places is a float. -/
theorem ofFloat_uint64 {n : UInt64} (hpos : 0 < n.toNat) (hlt : n.toNat < 2 ^ 53) :
    ofFloat n.toFloat = .finite false (n.toNat * 2 ^ (52 - n.toNat.log2)) (n.toNat.log2 - 52) := by
  obtain ⟨m, hm⟩ : ∃ m, m = n.toNat := ⟨_, rfl⟩
  rw [← hm] at hpos hlt ⊢
  have hlog : m.log2 < 53 := (Nat.log2_lt (Nat.ne_of_gt hpos)).mpr hlt
  have hround : n.toFloat = .ofModel (Float.Model.pack (round Format.binary64 .positive m 0)) := by
    have hcompare : compare (m : Int) 0 = .gt := compare_gt_iff_gt.mpr (by exact_mod_cast hpos)
    change Float.ofModel
      (Float.Model.pack (normalize Format.binary64 (n.toNat : Int) 0 .positive)) = _
    rw [← hm, UnpackedFloat.normalize, hcompare, Int.toNat_natCast]
  have hdecrease : decreaseExponent m 0 (Format.binary64.targetExponent (totalExponent m 0)) =
      (m * 2 ^ (52 - m.log2), (m.log2 : Int) - 52) := by
    have hshift : (0 - max ((m.log2 : Int) + 0 - 52) (-1074)).toNat = 52 - m.log2 := by omega
    rw [decreaseExponent, targetExponent_eq, hshift, Nat.shiftLeft_eq]
    refine Prod.ext rfl ?_
    change (0 : Int) - (52 - m.log2 : Nat) = _
    omega
  have hhigh : m * 2 ^ (52 - m.log2) < 2 ^ 53 :=
    calc m * 2 ^ (52 - m.log2) < 2 ^ (m.log2 + 1) * 2 ^ (52 - m.log2) :=
          Nat.mul_lt_mul_of_pos_right Nat.lt_log2_self (Nat.two_pow_pos _)
      _ = 2 ^ 53 := by rw [← pow_add]; congr 1; omega
  have hlow : 2 ^ 52 ≤ m * 2 ^ (52 - m.log2) :=
    calc 2 ^ 52 = 2 ^ m.log2 * 2 ^ (52 - m.log2) := by rw [← pow_add]; congr 1; omega
      _ ≤ m * 2 ^ (52 - m.log2) := Nat.mul_le_mul_right _ (Nat.log2_self_le (Nat.ne_of_gt hpos))
  have hround' : round Format.binary64 .positive m 0 = roundWithAccuracy Format.binary64 .positive
      (m * 2 ^ (52 - m.log2)) ((m.log2 : Int) - 52) .exact := by
    rw [UnpackedFloat.round, hdecrease]
  have hexp : (-1074 : Int) ≤ (m.log2 : Int) - 52 := by omega
  have hshift := shiftToTargetExponent_of_lt hhigh hexp
  rw [hround, hround', ofFloat_roundWithAccuracy (r := m * 2 ^ (52 - m.log2))
    (k := (m.log2 : Int) - 52) ⟨by rw [hshift]; rfl, by rw [hshift]⟩ hexp hhigh.le (Or.inr hlow),
    ofRounded, if_pos hhigh, if_pos (by omega)]

/-- What the significand is shifted by, the exponent takes back. -/
theorem shifted_value {m : Nat} (h : m.log2 ≤ 52) :
    ((m * 2 ^ (52 - m.log2) : Nat) : ℚ) * 2 ^ ((m.log2 : Int) - 52) = m := by
  have hshift : (m.log2 : Int) - 52 = -((52 - m.log2 : Nat) : Int) := by omega
  rw [hshift, zpow_neg, zpow_natCast]
  push_cast
  field_simp

/-- The powers of ten in the table are exact: the odd part of `10^22` still has 52 places. -/
theorem ofFloat_powerOfTen : ∀ (e : Nat) (_ : e < Float.exactlyRepresentablePowersOfTen.size),
    ofFloat Float.exactlyRepresentablePowersOfTen[e] =
      .finite false (5 ^ e * 2 ^ (52 - (5 ^ e).log2)) (e + (5 ^ e).log2 - 52) := by
  decide +kernel

end Binary64

/-! ## Decimals -/

namespace Decimal

open Binary64 Float.Model Float.Model.UnpackedFloat

/-- A significand of 53 places and a small power of ten are floats, so one operation rounds once. -/
theorem isRounding_fast {m : Nat} {e : Int} (hm : 0 < m) (hlt : m < 2 ^ 53) (he : e.natAbs ≤ 22) :
    IsRounding (m * 10 ^ e) (ofFloat (Float.ofScientific m (decide (e < 0)) e.natAbs)) := by
  obtain ⟨n, hn⟩ : ∃ n, n = e.natAbs := ⟨_, rfl⟩
  have hn23 : n < 23 := by omega
  -- Both operands are exact, each shifted so far that its significand has the leading bit.
  have hwhole : m.toUInt64.toNat = m := UInt64.toNat_ofNat_of_lt (lt_trans hlt (by decide))
  have hsignificand := ofFloat_uint64 (n := m.toUInt64) (by rwa [hwhole]) (by rwa [hwhole])
  rw [hwhole] at hsignificand
  have hpower := ofFloat_powerOfTen n hn23
  have hodd : 0 < 5 ^ n := Nat.pow_pos (by decide)
  have hlog : m.log2 ≤ 52 := Nat.le_of_lt_succ ((Nat.log2_lt (Nat.ne_of_gt hm)).mpr hlt)
  have hlog' : (5 ^ n).log2 ≤ 52 := by
    refine Nat.le_of_lt_succ ((Nat.log2_lt (Nat.ne_of_gt hodd)).mpr ?_)
    exact lt_of_le_of_lt (Nat.pow_le_pow_right (by decide) (by omega)) (by decide : 5 ^ 22 < 2 ^ 53)
  have hvalue := shifted_value hlog
  have hvalue' : ((5 ^ n * 2 ^ (52 - (5 ^ n).log2) : Nat) : ℚ) *
      2 ^ ((n : Int) + (5 ^ n).log2 - 52) = 10 ^ n := by
    rw [add_sub_assoc, zpow_add₀ (by norm_num), mul_left_comm, shifted_value hlog', zpow_natCast]
    push_cast
    rw [← mul_pow]
    norm_num
  have hpos := Nat.mul_pos hm (Nat.two_pow_pos (52 - m.log2))
  have hpos' := Nat.mul_pos hodd (Nat.two_pow_pos (52 - (5 ^ n).log2))
  rw [← hn, Float.ofScientific, dif_pos ⟨hlt, by omega⟩]
  by_cases hneg : e < 0
  · have hten : (m : ℚ) * 10 ^ e = m / 10 ^ n := by
      rw [show e = -(n : Int) by omega, zpow_neg, zpow_natCast, div_eq_mul_inv]
    have hround := ofFloat_div hpos hpos' hsignificand hpower
    rw [hvalue, hvalue', ← hten] at hround
    rw [if_pos (decide_eq_true hneg)]
    exact hround
  · have hten : (m : ℚ) * 10 ^ e = m * 10 ^ n := by
      rw [show e = (n : Int) by omega, zpow_natCast]
    have hplaces : 52 ≤ (m * 2 ^ (52 - m.log2) * (5 ^ n * 2 ^ (52 - (5 ^ n).log2))).log2 := by
      refine (Nat.le_log2 (Nat.ne_of_gt (Nat.mul_pos hpos hpos'))).mpr ?_
      calc 2 ^ 52 = 2 ^ m.log2 * 2 ^ (52 - m.log2) * 1 := by rw [mul_one, ← pow_add]; congr 1; omega
        _ ≤ _ := Nat.mul_le_mul (Nat.mul_le_mul_right _ (Nat.log2_self_le (Nat.ne_of_gt hm))) hpos'
    have hround := ofFloat_mul hpos hpos' hsignificand hpower hplaces
    rw [hvalue, hvalue', ← hten] at hround
    rw [if_neg (by rw [decide_eq_true_iff]; exact hneg)]
    exact hround

/-- A decimal that is whole is multiplied out. -/
theorem isRounding_whole {m : Nat} (hm : 0 < m) (n : Nat) (hshifted : 0 < m <<< 53)
    (hten : 0 < 10 ^ n) :
    IsRounding (m * 10 ^ n) (ofFloat (.ofModel (Float.Model.pack (UnpackedFloat.mul Format.binary64
      (.finite .positive (m <<< 53) (-53) hshifted) (.finite .positive (10 ^ n) 0 hten))))) := by
  have hvalue : ((m <<< 53 : Nat) : ℚ) * 2 ^ (-53 : Int) * ((10 ^ n : Nat) * 2 ^ (0 : Int)) =
      m * 10 ^ n := by
    rw [Nat.shiftLeft_eq, zpow_neg, zpow_ofNat, zpow_zero]
    push_cast
    field_simp
    norm_num
  have hplaces : 52 ≤ (m <<< 53 * 10 ^ n).log2 := by
    rw [Nat.le_log2 (Nat.ne_of_gt (Nat.mul_pos hshifted hten)), Nat.shiftLeft_eq]
    calc 2 ^ 52 ≤ 1 * 2 ^ 53 * 1 := by decide
      _ ≤ m * 2 ^ 53 * 10 ^ n := Nat.mul_le_mul (Nat.mul_le_mul_right _ hm) hten
  rw [← hvalue]
  exact isRounding_mul hshifted hten hplaces

/-- A decimal with places behind the point is divided. -/
theorem isRounding_places {m : Nat} (hm : 0 < m) (n : Nat) (hten : 0 < 10 ^ n) :
    IsRounding (m / 10 ^ n) (ofFloat (.ofModel (Float.Model.pack (UnpackedFloat.div Format.binary64
      (.finite .positive m 0 hm) (.finite .positive (10 ^ n) 0 hten))))) := by
  have hvalue : (m : ℚ) * 2 ^ (0 : Int) / ((10 ^ n : Nat) * 2 ^ (0 : Int)) = m / 10 ^ n := by
    rw [zpow_zero, mul_one, mul_one, Nat.cast_pow, Nat.cast_ofNat]
  rw [← hvalue]
  exact isRounding_div hm hten

/-- Beyond this exponent even a significand of 1 is too large for a float. -/
theorem isRounding_of_large {m : Nat} {e : Int} (hm : 0 < m) (he : 2048 < e) :
    IsRounding (m * 10 ^ e) (.infinite false) := by
  have hone : (1 : ℚ) ≤ m := by exact_mod_cast hm
  refine isRounding_infinite ?_
  calc (2 : ℚ) ^ (1024 : Int) ≤ 2 ^ e := zpow_le_zpow_right₀ (by norm_num) (by omega)
    _ ≤ 10 ^ e := zpow_le_zpow_left₀ (by omega) (by norm_num) (by norm_num)
    _ ≤ m * 10 ^ e := le_mul_of_one_le_left (ten_zpow_pos e).le hone

/-- Below this one the significand does not reach the smallest float. -/
theorem isRounding_of_small {m : Nat} {e : Int} (he : e < -(2048 + (m.log2 : Int))) :
    IsRounding (m * 10 ^ e) (.finite false 0 (-1074)) := by
  have hsignificand : (m : ℚ) ≤ 2 ^ ((m.log2 : Int) + 1) := by
    rw [show (m.log2 : Int) + 1 = ((m.log2 + 1 : Nat) : Int) from rfl, zpow_natCast]
    exact_mod_cast Nat.lt_log2_self.le
  have hpower : (10 : ℚ) ^ e ≤ 2 ^ e := by
    obtain ⟨n, rfl⟩ : ∃ n : Nat, e = -(n : Int) := ⟨(-e).toNat, by omega⟩
    rw [zpow_neg, zpow_neg, zpow_natCast, zpow_natCast]
    exact inv_anti₀ (by positivity) (pow_le_pow_left₀ (by norm_num) (by norm_num) n)
  refine isRounding_zero (mul_nonneg (Nat.cast_nonneg m) (ten_zpow_pos e).le) ?_
  calc (m : ℚ) * 10 ^ e ≤ 2 ^ ((m.log2 : Int) + 1) * 2 ^ e :=
        mul_le_mul hsignificand hpower (ten_zpow_pos e).le (two_zpow_pos _).le
    _ = 2 ^ ((m.log2 : Int) + 1 + e) := (zpow_add₀ (by norm_num) _ _).symm
    _ ≤ 2 ^ (-1075 : Int) := zpow_le_zpow_right₀ (by norm_num) (by omega)

/-- Any other decimal is multiplied out or divided in whole numbers, if its exponent is not out of
all proportion. -/
theorem isRounding_slow {m : Nat} {e : Int} (hm : 0 < m) :
    IsRounding (m * 10 ^ e) (ofFloat (.ofModel (Float.Model.ofScientific m e))) := by
  have hmodel : Float.Model.ofScientific m e =
    Float.Model.pack (UnpackedFloat.ofScientific Format.binary64 m e) := rfl
  have hsafe : (2 : Int) ^ Format.binary64.exponentBits = 2048 := rfl
  rw [hmodel, UnpackedFloat.ofScientific, dif_neg (Nat.ne_of_gt hm), hsafe]
  by_cases hlarge : e > 2048
  · rw [if_pos hlarge, ofFloat_pack_infinity]
    exact isRounding_of_large hm hlarge
  rw [if_neg hlarge]
  by_cases hsmall : e < -(2048 + (m.log2 : Int))
  · rw [if_pos hsmall, ofFloat_pack_zero]
    exact isRounding_of_small hsmall
  rw [if_neg hsmall]
  by_cases hneg : 0 ≤ e
  · have hten : (m : ℚ) * 10 ^ e = m * 10 ^ e.toNat := by
      rw [← zpow_natCast, Int.toNat_of_nonneg hneg]
    rw [if_pos hneg, hten]
    exact isRounding_whole hm e.toNat _ _
  · have hten : (m : ℚ) * 10 ^ e = m / 10 ^ (-e).toNat := by
      rw [← zpow_natCast, Int.toNat_of_nonneg (by omega), zpow_neg, div_inv_eq_mul]
    rw [if_neg hneg, hten]
    exact isRounding_places hm (-e).toNat _

/-- The float of a decimal is the nearest one. -/
theorem isRounding_toFloat {d : Decimal} (hd : 0 < d.significand) :
    IsRounding d.toRat (ofFloat d.toFloat) := by
  rcases d with ⟨m, e⟩
  rw [toRat_mk, toFloat]
  dsimp only at hd ⊢
  by_cases hfast : m < 2 ^ 53 ∧ e.natAbs ≤ 22
  · exact isRounding_fast hd hfast.1 hfast.2
  · have hsign :
        (if decide (e < 0) = true then Int.negOfNat e.natAbs else Int.ofNat e.natAbs) = e := by
      by_cases hneg : e < 0
      · rw [if_pos (decide_eq_true hneg), Int.negOfNat_eq]
        exact (Int.eq_neg_natAbs_of_nonpos hneg.le).symm
      · rw [if_neg (by rw [decide_eq_true_iff]; exact hneg)]
        exact Int.natAbs_of_nonneg (not_lt.mp hneg)
    rw [Float.ofScientific, dif_neg hfast]
    dsimp only
    rw [hsign]
    exact isRounding_slow hd

end Decimal
end Reckoner
