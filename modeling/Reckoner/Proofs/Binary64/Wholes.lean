/-
The float of a whole number, and the whole number of a float.

Up to `2^53` places are enough, and the float of a whole number is equal to it. From there on the
last place weighs 2 or more, so every float is whole; it may be another number, but not a smaller one
than `2^53`. In the end there is no float that large: what would round up to `2^1024` is infinite, and
an infinite float is equal to no whole number. The sign goes along unchanged.
-/
import Reckoner.Proofs.Binary64.Scientific
import Reckoner.Value.Basic

set_option autoImplicit false

namespace Reckoner.Binary64

/-- Half way between the last number of a binade and its end, if the last place is `2^(e + 1)`. -/
def lastHalf (e : Nat) : Nat :=
  (2 ^ 54 - 1) * 2 ^ e

/-- The smallest magnitude of a whole number whose float is infinite. It lies half way between the
largest float and `2^1024`. -/
def wholeLimit : Nat :=
  lastHalf 970

theorem le_lastHalf {e j : Nat} (h : j ≤ e) : 2 ^ 53 * 2 ^ j ≤ lastHalf e :=
  Nat.mul_le_mul (by decide) (Nat.pow_le_pow_right (by decide) h)

/-- The numbers up to `2^53`, which are their own floats, are below it. -/
theorem le_wholeLimit : 2 ^ 53 ≤ wholeLimit :=
  le_lastHalf (Nat.zero_le 970)

theorem lastHalf_le {e j : Nat} (h : e + 2 ≤ j) : lastHalf e ≤ 2 ^ 52 * 2 ^ j :=
  calc lastHalf e ≤ 2 ^ 54 * 2 ^ e := Nat.mul_le_mul_right _ (by decide)
    _ = 2 ^ (52 + (e + 2)) := by ring
    _ ≤ 2 ^ (52 + j) := Nat.pow_le_pow_right (by decide) (by omega)
    _ = 2 ^ 52 * 2 ^ j := pow_add 2 52 j

/-! ## The whole number of a content -/

theorem toInt?_finite_pow (r j : Nat) :
    (finite false r (j : Int)).toInt? = some ((r * 2 ^ j : Nat) : Int) := by
  have hnonneg : (0 : Int) ≤ j := Int.natCast_nonneg j
  rw [toInt?, if_pos (Or.inl hnonneg), scaled, if_pos hnonneg, Int.toNat_natCast,
    Nat.shiftLeft_eq]
  rfl

/-- Places behind the point do no harm if they are all zero. -/
theorem toInt?_finite_neg (m j : Nat) :
    (finite false (m * 2 ^ j) (-(j : Int))).toInt? = some (m : Int) := by
  rcases Nat.eq_zero_or_pos j with rfl | hj
  · rw [pow_zero, mul_one]
    exact (toInt?_finite_pow m 0).trans (by rw [pow_zero, mul_one])
  · have hneg : ¬(0 : Int) ≤ -(j : Int) := by omega
    have hplaces : m * 2 ^ j % (1 <<< (-(-(j : Int))).toNat) = 0 := by
      rw [neg_neg, Int.toNat_natCast, Nat.shiftLeft_eq, one_mul, Nat.mul_mod_left]
    rw [toInt?, if_pos (Or.inr hplaces), scaled, if_neg hneg, neg_neg, Int.toNat_natCast,
      Nat.shiftRight_eq_div_pow, Nat.mul_div_cancel _ (Nat.two_pow_pos j)]
    rfl

theorem toInt?_opposite (c : Binary64) : c.opposite.toInt? = c.toInt?.map fun n => -n := by
  cases c with
  | nan => rfl
  | infinite negative => rfl
  | finite negative m q =>
    simp only [opposite, toInt?]
    split
    · cases negative <;> simp
    · rfl

/-! ## The nearest float of a whole number -/

theorem isNearest_natCast (m : Nat) : IsNearest (m : ℚ) m :=
  ⟨by linarith, by linarith, fun _ => ⟨by linarith, by linarith⟩⟩

/-- Below `2^53` nothing is rounded. -/
theorem IsRounding.toInt?_of_lt {n : Nat} {c : Binary64} (h : IsRounding n c) (hn : n < 2 ^ 53) :
    c.toInt? = some (n : Int) := by
  obtain ⟨k, r, hbinade, hnearest, rfl⟩ := h
  have hn' : (n : ℚ) < 2 ^ 53 := by exact_mod_cast hn
  -- A last place of 2 or more would make the number at least `2^53`.
  have hk : k ≤ 0 := by
    by_contra hpos
    rcases hbinade.le with hsmallest | hle
    · omega
    · have hpow : (2 : ℚ) ^ (1 : Int) ≤ 2 ^ k := zpow_le_zpow_right₀ (by norm_num) (by omega)
      rw [zpow_one] at hpow
      linarith
  obtain ⟨j, rfl⟩ : ∃ j : Nat, k = -(j : Int) := ⟨(-k).toNat, by omega⟩
  have hunits : (n : ℚ) / 2 ^ (-(j : Int)) = (n * 2 ^ j : Nat) := by
    rw [zpow_neg, zpow_natCast, div_inv_eq_mul]
    push_cast
    rfl
  rw [hunits] at hnearest
  obtain rfl := hnearest.unique (isNearest_natCast _)
  have hlt : n * 2 ^ j < 2 ^ 53 := by
    have hbound := hbinade.lt
    rw [← div_lt_iff₀ (two_zpow_pos _), hunits] at hbound
    exact_mod_cast hbound
  rw [ofRounded, if_pos hlt, if_pos (by omega)]
  exact toInt?_finite_neg n j

/-- From `2^53` on the last place of a float is 2 or more, and its significand has all places. -/
theorem IsRounding.exists_of_le {n : Nat} {c : Binary64} (h : IsRounding n c) (hn : 2 ^ 53 ≤ n) :
    ∃ j r : Nat, (2 ^ 52 * 2 ^ (j + 1) ≤ n ∧ n < 2 ^ 53 * 2 ^ (j + 1)) ∧
      IsNearest (n / 2 ^ (j + 1)) r ∧ 2 ^ 52 ≤ r ∧ c = ofRounded (j + 1 : Nat) r := by
  obtain ⟨k, r, hbinade, hnearest, rfl⟩ := h
  have hn' : (2 : ℚ) ^ 53 ≤ n := by exact_mod_cast hn
  have hk : 1 ≤ k := by
    by_contra hle
    have hpow : (2 : ℚ) ^ k ≤ 2 ^ (0 : Int) := zpow_le_zpow_right₀ (by norm_num) (by omega)
    rw [zpow_zero] at hpow
    linarith [hbinade.lt]
  obtain ⟨j, rfl⟩ : ∃ j : Nat, k = (j + 1 : Nat) := ⟨(k - 1).toNat, by omega⟩
  have hlow : 2 ^ 52 * 2 ^ ((j + 1 : Nat) : Int) ≤ (n : ℚ) := by
    rcases hbinade.le with hsmallest | hle
    · omega
    · exact hle
  have hhigh := hbinade.lt
  rw [zpow_natCast] at hlow hhigh hnearest
  refine ⟨j, r, ⟨by exact_mod_cast hlow, by exact_mod_cast hhigh⟩, hnearest, ?_, rfl⟩
  rw [← le_div_iff₀ (by positivity)] at hlow
  have hr : (2 : ℚ) ^ 52 < r + 1 := by linarith [hnearest.high]
  have hr' : 2 ^ 52 < r + 1 := by exact_mod_cast hr
  omega

/-- What is rounded to less than `2^53` last places. The largest significand is odd, so a number half
way to the end of the binade is rounded to the end. -/
theorem IsNearest.lt_iff {e n r : Nat} (h : IsNearest (n / 2 ^ (e + 1)) r) :
    r < 2 ^ 53 ↔ n < lastHalf e := by
  have hdouble : 2 * ((n : ℚ) / 2 ^ (e + 1)) = n / 2 ^ e := by
    rw [pow_succ]
    field_simp
  have hlimit : n < lastHalf e ↔ (n : ℚ) / 2 ^ e < 2 ^ 54 - 1 := by
    rw [div_lt_iff₀ (by positivity), ← Nat.cast_lt (α := ℚ), lastHalf]
    push_cast
    norm_num
  obtain ⟨hlow, hhigh, hstrict⟩ := h
  rw [hdouble] at hlow hhigh hstrict
  rw [hlimit]
  constructor
  · intro hr
    rcases Nat.lt_or_ge (r + 1) (2 ^ 53) with hbelow | htop
    · have hle : (r : ℚ) + 1 + 1 ≤ 2 ^ 53 := by exact_mod_cast hbelow
      linarith
    · have hle : (r : ℚ) + 1 ≤ 2 ^ 53 := by exact_mod_cast hr
      have hodd : r % 2 = 1 := by omega
      linarith [(hstrict hodd).2]
  · intro hlt
    have hr : (r : ℚ) < 2 ^ 53 := by linarith
    exact_mod_cast hr

/-- A large whole number is rounded to another large one, if there are floats of its size. -/
theorem IsRounding.toInt?_of_le {n : Nat} {c : Binary64} (h : IsRounding n c) (hn : 2 ^ 53 ≤ n)
    (hlimit : n < wholeLimit) : ∃ m : Nat, 2 ^ 53 ≤ m ∧ c.toInt? = some (m : Int) := by
  obtain ⟨j, r, ⟨hle, -⟩, hnearest, hr, rfl⟩ := h.exists_of_le hn
  have hlast : j + 1 ≤ 971 := by
    by_contra hbeyond
    exact absurd hlimit (not_lt.mpr ((lastHalf_le (by omega)).trans hle))
  have hcontent : ∃ m i : Nat, ofRounded (j + 1 : Nat) r = .finite false m (i : Int) ∧
      2 ^ 52 ≤ m ∧ 1 ≤ i := by
    rw [ofRounded]
    by_cases hcarry : r < 2 ^ 53
    · rw [if_pos hcarry, if_pos (by omega)]
      exact ⟨r, j + 1, rfl, hr, by omega⟩
    · have hbelow : j ≠ 970 := by
        rintro rfl
        exact hcarry (hnearest.lt_iff.mpr hlimit)
      rw [if_neg hcarry, if_pos (by omega)]
      exact ⟨2 ^ 52, j + 2, rfl, le_refl _, by omega⟩
  obtain ⟨m, i, hfinite, hm, hi⟩ := hcontent
  refine ⟨m * 2 ^ i, ?_, by rw [hfinite, toInt?_finite_pow]⟩
  calc 2 ^ 53 = 2 ^ 52 * 2 ^ 1 := by norm_num
    _ ≤ m * 2 ^ i := Nat.mul_le_mul hm (Nat.pow_le_pow_right (by decide) hi)

/-- Beyond that its float is infinite. -/
theorem IsRounding.eq_infinite {n : Nat} {c : Binary64} (h : IsRounding n c)
    (hlimit : wholeLimit ≤ n) : c = .infinite false := by
  have hn : 2 ^ 53 ≤ n := le_wholeLimit.trans hlimit
  obtain ⟨j, r, ⟨-, hlt⟩, hnearest, -, rfl⟩ := h.exists_of_le hn
  have hlast : 971 ≤ j + 1 := by
    by_contra hbefore
    exact absurd hlt (not_lt.mpr ((le_lastHalf (by omega)).trans hlimit))
  rw [ofRounded]
  by_cases hcarry : r < 2 ^ 53
  · have hbeyond : j ≠ 970 := by
      rintro rfl
      exact absurd (hnearest.lt_iff.mp hcarry) (not_lt.mpr hlimit)
    rw [if_pos hcarry, if_neg (by omega)]
  · rw [if_neg hcarry, if_neg (by omega)]

/-! ## The conversion -/

theorem isRounding_ofNat {n : Nat} (hn : 0 < n) : IsRounding n (ofFloat (Float.ofNat n)) := by
  have hdecimal : Float.ofNat n = Decimal.toFloat ⟨n, 0⟩ := rfl
  have hvalue : Decimal.toRat ⟨n, 0⟩ = n := by rw [Decimal.toRat_mk, zpow_zero, mul_one]
  rw [hdecimal, ← hvalue]
  exact Decimal.isRounding_toFloat hn

theorem toInt?_ofNat_zero : (ofFloat (Float.ofNat 0)).toInt? = some 0 := rfl

/-- The opposite number is converted to the opposite float. -/
theorem toInt?_ofInt_neg (n : Nat) :
    (ofFloat (Float.ofInt (-(n : Int)))).toInt? =
      (ofFloat (Float.ofNat n)).toInt?.map fun n => -n := by
  cases n with
  | zero =>
    have hzero : Float.ofInt (-((0 : Nat) : Int)) = Float.ofNat 0 := rfl
    rw [hzero, toInt?_ofNat_zero]
    rfl
  | succ n =>
    have hneg : Float.ofInt (-((n + 1 : Nat) : Int)) = -Float.ofNat (n + 1) := rfl
    rw [hneg, ofFloat_neg, toInt?_opposite]

theorem toInt?_ofNat {n : Nat} (h : n < wholeLimit) :
    ∃ m : Nat, (ofFloat (Float.ofNat n)).toInt? = some (m : Int) ∧
      (m = n ∨ 2 ^ 53 ≤ n ∧ 2 ^ 53 ≤ m) := by
  rcases Nat.eq_zero_or_pos n with rfl | hpos
  · exact ⟨0, toInt?_ofNat_zero, Or.inl rfl⟩
  have hround := isRounding_ofNat hpos
  rcases Nat.lt_or_ge n (2 ^ 53) with hsmall | hlarge
  · exact ⟨n, hround.toInt?_of_lt hsmall, Or.inl rfl⟩
  · obtain ⟨m, hm, hback⟩ := hround.toInt?_of_le hlarge h
    exact ⟨m, hback, Or.inr ⟨hlarge, hm⟩⟩

theorem toInt?_ofNat_eq_none {n : Nat} (h : wholeLimit ≤ n) :
    (ofFloat (Float.ofNat n)).toInt? = none := by
  have hpos : 0 < n := (Nat.two_pow_pos 53).trans_le (le_wholeLimit.trans h)
  rw [(isRounding_ofNat hpos).eq_infinite h]
  rfl

/-- What a whole number comes back as, if it is converted to a float and back: as itself up to `2^53`,
and as some number beyond that on the same side, if it lies beyond. -/
theorem toInt?_ofInt {n : Int} (h : n.natAbs < wholeLimit) :
    ∃ k : Int, (ofFloat (Float.ofInt n)).toInt? = some k ∧
      (k = n ∨ 2 ^ 53 ≤ n ∧ 2 ^ 53 ≤ k ∨ n ≤ -2 ^ 53 ∧ k ≤ -2 ^ 53) := by
  obtain ⟨m, hback, hm⟩ := toInt?_ofNat h
  rcases n.natAbs_eq with hn | hn
  · generalize n.natAbs = i at *
    subst hn
    exact ⟨m, hback, by omega⟩
  · generalize n.natAbs = i at *
    subst hn
    exact ⟨-m, by rw [toInt?_ofInt_neg, hback, Option.map_some], by omega⟩

/-- A number too large for the floats does not come back. -/
theorem toInt?_ofInt_eq_none {n : Int} (h : wholeLimit ≤ n.natAbs) :
    (ofFloat (Float.ofInt n)).toInt? = none := by
  have hnone := toInt?_ofNat_eq_none h
  rcases n.natAbs_eq with hn | hn
  · rw [hn]
    exact hnone
  · rw [hn, toInt?_ofInt_neg, hnone, Option.map_none]

end Reckoner.Binary64
