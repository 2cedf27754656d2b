/-
The numbers that are read as a given float.

They form the interval around the float that the search for its shortest decimal uses. Half a last
place belongs to the float on either side, and a quarter below a power of two. In both directions:
the nearest float of a number in the interval is this one, and a number whose nearest float it is
lies in the interval.
-/
import Reckoner.Decimal.Shortest
import Reckoner.Proofs.Binary64.Scientific

set_option autoImplicit false

namespace Reckoner

theorem dyadic_eq (m : Nat) (q : Int) : dyadic m q = m * (2 : ℚ) ^ q := by
  unfold dyadic
  split
  · next h =>
    have hexp : (2 : ℚ) ^ q = 2 ^ q.toNat := by
      rw [← zpow_natCast, Int.toNat_of_nonneg h]
    rw [Rat.mkRat_one, hexp, Nat.shiftLeft_eq]
    push_cast
    rfl
  · next h =>
    have hexp : (2 : ℚ) ^ q = (2 ^ (-q).toNat)⁻¹ := by
      rw [← zpow_natCast, Int.toNat_of_nonneg (by omega), zpow_neg, inv_inv]
    rw [Rat.mkRat_eq_div, hexp, div_eq_mul_inv, Nat.shiftLeft_eq]
    push_cast
    rw [one_mul]

/-- No positive float is smaller than the smallest last place. -/
theorem smallest_le_dyadic {m : Nat} {q : Int} (hcanonical : Binary64.Canonical m q) (hm : 0 < m) :
    2 ^ (-1074 : Int) ≤ dyadic m q := by
  have hone : (1 : ℚ) ≤ m := by exact_mod_cast hm
  rw [dyadic_eq]
  calc (2 : ℚ) ^ (-1074 : Int) ≤ 2 ^ q := zpow_le_zpow_right₀ (by norm_num) hcanonical.le
    _ ≤ m * 2 ^ q := le_mul_of_one_le_left (two_zpow_pos q).le hone

theorem dyadic_pos {m : Nat} (hm : 0 < m) (q : Int) : 0 < dyadic m q := by
  rw [dyadic_eq]
  exact mul_pos (by exact_mod_cast hm) (two_zpow_pos q)

namespace RoundingInterval

open Binary64

/-! ## Membership -/

/-- The numbers of an interval. -/
structure Contains (i : RoundingInterval) (v : ℚ) : Prop where
  low_le : i.low ≤ v
  le_high : v ≤ i.high
  inside : i.closed = false → i.low < v ∧ v < i.high

theorem holds_iff {i : RoundingInterval} {d : Decimal} : i.holds d = true ↔ i.Contains d.toRat := by
  rw [holds]
  cases hclosed : i.closed with
  | true =>
    rw [if_pos rfl, decide_eq_true_iff]
    exact ⟨fun h => ⟨h.1, h.2, fun hopen => by rw [hclosed] at hopen; cases hopen⟩,
      fun h => ⟨h.low_le, h.le_high⟩⟩
  | false =>
    rw [if_neg (by decide), decide_eq_true_iff]
    exact ⟨fun h => ⟨h.1.le, h.2.le, fun _ => h⟩, fun h => h.inside hclosed⟩

/-- What lies between two numbers of the interval belongs to it. -/
theorem Contains.between {i : RoundingInterval} {a b c : ℚ} (ha : i.Contains a) (hc : i.Contains c)
    (hab : a ≤ b) (hbc : b ≤ c) : i.Contains b :=
  ⟨ha.low_le.trans hab, hbc.trans hc.le_high, fun hopen =>
    ⟨(ha.inside hopen).1.trans_le hab, hbc.trans_lt (hc.inside hopen).2⟩⟩

section Around

variable {m : Nat} {q : Int} {v : ℚ}

/-- How much of the last place below a float belongs to it, in quarters. -/
def quartersBelow (m : Nat) (q : Int) : Nat :=
  if m = 2 ^ 52 ∧ -1074 < q then 1 else 2

theorem quartersBelow_le (m : Nat) (q : Int) : quartersBelow m q ≤ 2 := by
  unfold quartersBelow
  split <;> decide

theorem quartersBelow_pos (m : Nat) (q : Int) : 0 < quartersBelow m q := by
  unfold quartersBelow
  split <;> decide

/-- Membership by the distance from the float, in last places. -/
theorem contains_around_iff (hm : 0 < m) :
    (around m q).Contains v ↔
      4 * (dyadic m q - v) ≤ quartersBelow m q * 2 ^ q ∧ 2 * (v - dyadic m q) ≤ 2 ^ q ∧
        (m % 2 = 1 → 4 * (dyadic m q - v) < quartersBelow m q * 2 ^ q ∧
          2 * (v - dyadic m q) < 2 ^ q) := by
  have hlast : (2 : ℚ) ^ q = 4 * 2 ^ (q - 2) := by
    rw [show (4 : ℚ) = 2 ^ (2 : Int) by norm_num, ← zpow_add₀ (by norm_num)]
    congr 1
    omega
  -- Both ends are whole numbers of quarters, and the float is four of them for each last place.
  have hlow : (around m q).low = dyadic m q - quartersBelow m q * 2 ^ (q - 2) := by
    have hquarters : (if m = 1 <<< 52 ∧ -1074 < q then 4 * m - 1 else 4 * m - 2) =
        4 * m - quartersBelow m q := by
      unfold quartersBelow
      rw [show (1 <<< 52 : Nat) = 2 ^ 52 from rfl]
      split <;> rfl
    have hle : quartersBelow m q ≤ 4 * m := (quartersBelow_le m q).trans (by omega)
    change dyadic (if m = 1 <<< 52 ∧ -1074 < q then 4 * m - 1 else 4 * m - 2) (q - 2) = _
    rw [hquarters, dyadic_eq, dyadic_eq, Nat.cast_sub hle, hlast]
    push_cast
    ring
  have hhigh : (around m q).high = dyadic m q + 2 * 2 ^ (q - 2) := by
    change dyadic (4 * m + 2) (q - 2) = _
    rw [dyadic_eq, dyadic_eq, hlast]
    push_cast
    ring
  have hbelow : (quartersBelow m q : ℚ) * 2 ^ q = 4 * (quartersBelow m q * 2 ^ (q - 2)) := by
    rw [hlast, mul_left_comm]
  have hclosed : (around m q).closed = false ↔ m % 2 = 1 := by
    rw [around, decide_eq_false_iff_not]
    omega
  constructor
  · rintro ⟨h, h', hinside⟩
    rw [hlow] at h hinside
    rw [hhigh] at h' hinside
    refine ⟨by linarith, by linarith, fun hodd => ?_⟩
    obtain ⟨hlt, hlt'⟩ := hinside (hclosed.mpr hodd)
    exact ⟨by linarith, by linarith⟩
  · rintro ⟨h, h', hinside⟩
    refine ⟨by rw [hlow]; linarith, by rw [hhigh]; linarith, fun hopen => ?_⟩
    obtain ⟨hlt, hlt'⟩ := hinside (hclosed.mp hopen)
    rw [hlow, hhigh]
    exact ⟨by linarith, by linarith⟩

theorem contains_dyadic (hm : 0 < m) : (around m q).Contains (dyadic m q) := by
  have hpos := two_zpow_pos q
  have hquarters : (0 : ℚ) < quartersBelow m q * 2 ^ q :=
    mul_pos (by exact_mod_cast quartersBelow_pos m q) hpos
  rw [contains_around_iff hm, sub_self, mul_zero, mul_zero]
  exact ⟨hquarters.le, hpos.le, fun _ => ⟨hquarters, hpos⟩⟩

theorem contains_of_lt_below (hm : 0 < m) (hle : v ≤ dyadic m q)
    (h : 4 * (dyadic m q - v) < quartersBelow m q * 2 ^ q) : (around m q).Contains v := by
  have hpos := two_zpow_pos q
  exact (contains_around_iff hm).mpr ⟨h.le, by linarith, fun _ => ⟨h, by linarith⟩⟩

theorem contains_of_lt_above (hm : 0 < m) (hle : dyadic m q ≤ v)
    (h : 2 * (v - dyadic m q) < 2 ^ q) : (around m q).Contains v := by
  have hquarters : (0 : ℚ) < quartersBelow m q * 2 ^ q :=
    mul_pos (by exact_mod_cast quartersBelow_pos m q) (two_zpow_pos q)
  exact (contains_around_iff hm).mpr ⟨by linarith, h.le, fun _ => ⟨by linarith, h⟩⟩

/-- Zero is too far away from any other float. -/
theorem Contains.pos (hm : 0 < m) (h : (around m q).Contains v) : 0 < v := by
  have hpos := two_zpow_pos q
  have hbelow := ((contains_around_iff hm).mp h).1
  have hone : (1 : ℚ) ≤ m := by exact_mod_cast hm
  have hquarters : (quartersBelow m q : ℚ) ≤ 2 := by exact_mod_cast quartersBelow_le m q
  rw [dyadic_eq] at hbelow
  nlinarith

theorem significand_pos_of_holds {d : Decimal} (hm : 0 < m) (h : (around m q).holds d = true) :
    0 < d.significand := by
  have hpos := (holds_iff.mp h).pos hm
  rw [Decimal.toRat_eq] at hpos
  refine Nat.pos_of_ne_zero fun hzero => ?_
  rw [hzero, Nat.cast_zero, zero_mul] at hpos
  exact absurd hpos (lt_irrefl 0)

/-! ## The nearest float -/

/-- In the binade of the float, which counts the same last places. -/
theorem isRounding_of_inBinade (hcanonical : Canonical m q) {t : ℚ}
    (hbinade : q = -1074 ∨ (2 : ℚ) ^ 52 ≤ t) (hnearest : IsNearest t m) :
    IsRounding (t * 2 ^ q) (.finite false m q) := by
  have hpos := two_zpow_pos q
  have hlt : (m : ℚ) + 1 ≤ 2 ^ 53 := by exact_mod_cast hcanonical.lt
  have hhigh := hnearest.high
  refine ⟨q, m, ⟨hcanonical.le, ?_, hbinade.imp_right fun hle => ?_⟩, ?_, ?_⟩
  · exact mul_lt_mul_of_pos_right (by linarith) hpos
  · exact mul_le_mul_of_nonneg_right hle hpos.le
  · rw [mul_div_cancel_right₀ _ hpos.ne']
    exact hnearest
  · rw [ofRounded, if_pos hcanonical.lt, if_pos hcanonical.le_top]

/-- Just below a power of two, where the last places are half as large and rounding carries. -/
theorem isRounding_of_carry {t : ℚ} (hlow : -1074 < q) (htop : q ≤ 971)
    (hbelow : 4 * (2 ^ 52 - t) ≤ 1) (ht : t < 2 ^ 52) :
    IsRounding (t * 2 ^ q) (.finite false (2 ^ 52) q) := by
  have hpos := two_zpow_pos (q - 1)
  have hvalue : t * 2 ^ q = 2 * t * 2 ^ (q - 1) := by
    have hstep : (2 : ℚ) ^ q = 2 * 2 ^ (q - 1) := by
      rw [← zpow_one_add₀ (by norm_num)]
      congr 1
      omega
    rw [hstep]
    ring
  rw [hvalue]
  refine ⟨q - 1, 2 ^ 53, ⟨by omega, ?_, Or.inr ?_⟩, ?_, ?_⟩
  · exact mul_lt_mul_of_pos_right (by linarith) hpos
  · exact mul_le_mul_of_nonneg_right (by linarith) hpos.le
  · rw [mul_div_cancel_right₀ _ hpos.ne']
    refine ⟨?_, ?_, fun hmod => absurd hmod (by decide)⟩ <;> push_cast <;> linarith
  · rw [ofRounded, if_neg (lt_irrefl _), if_pos (by omega), sub_add_cancel]

/-- A number of the interval is nearest to the float. -/
theorem Contains.isRounding (hcanonical : Canonical m q) (hm : 0 < m)
    (h : (around m q).Contains v) : IsRounding v (.finite false m q) := by
  obtain ⟨hbelow, habove, hodd⟩ := (contains_around_iff hm).mp h
  have hpos := two_zpow_pos q
  -- Counted in last places, the number is `t` and the float is `m`.
  obtain ⟨t, rfl⟩ : ∃ t, v = t * 2 ^ q := ⟨v / 2 ^ q, by field_simp⟩
  rw [dyadic_eq] at hbelow habove hodd
  have hbelow' : 4 * (m - t) ≤ quartersBelow m q :=
    le_of_mul_le_mul_right (by linarith) hpos
  have habove' : 2 * (t - m) ≤ 1 := le_of_mul_le_mul_right (by linarith) hpos
  have hquarters : (quartersBelow m q : ℚ) ≤ 2 := by exact_mod_cast quartersBelow_le m q
  by_cases hbinade : q = -1074 ∨ (2 : ℚ) ^ 52 ≤ t
  · refine isRounding_of_inBinade hcanonical hbinade ⟨by linarith, by linarith, fun hmod => ?_⟩
    obtain ⟨hlt, hlt'⟩ := hodd hmod
    have hbelow'' : 4 * (m - t) < quartersBelow m q :=
      lt_of_mul_lt_mul_right (by linarith) hpos.le
    have habove'' : 2 * (t - m) < 1 := lt_of_mul_lt_mul_right (by linarith) hpos.le
    exact ⟨by linarith, by linarith⟩
  · -- Below its binade there are only numbers for a power of two.
    obtain ⟨hq, ht⟩ := not_or.mp hbinade
    have ht' : t < 2 ^ 52 := not_le.mp ht
    have hm52 : 2 ^ 52 ≤ m := (hcanonical.resolve_left fun h => hq h.2).1
    obtain rfl : m = 2 ^ 52 := by
      have hlt : (m : ℚ) < 2 ^ 52 + 1 := by linarith
      have hlt' : m < 2 ^ 52 + 1 := by exact_mod_cast hlt
      omega
    have hlow : -1074 < q := lt_of_le_of_ne hcanonical.le (Ne.symm hq)
    have hone : quartersBelow (2 ^ 52) q = 1 := if_pos ⟨rfl, hlow⟩
    rw [hone] at hbelow'
    push_cast at hbelow'
    exact isRounding_of_carry hlow hcanonical.le_top hbelow' ht'

/-- And the other way round. -/
theorem contains_of_isRounding (hm : 0 < m) (h : IsRounding v (.finite false m q)) :
    (around m q).Contains v := by
  obtain ⟨k, r, hbinade, hnearest, hcontent⟩ := h
  have hpos := two_zpow_pos k
  obtain ⟨t, rfl⟩ : ∃ t, v = t * 2 ^ k := ⟨v / 2 ^ k, by field_simp⟩
  rw [mul_div_cancel_right₀ _ hpos.ne'] at hnearest
  have hlt : t < 2 ^ 53 := lt_of_mul_lt_mul_right hbinade.lt hpos.le
  have hle : k = -1074 ∨ (2 : ℚ) ^ 52 ≤ t :=
    hbinade.le.imp_right fun h => le_of_mul_le_mul_right h hpos
  obtain ⟨hlow, hhigh, hstrict⟩ := hnearest
  rw [ofRounded] at hcontent
  split_ifs at hcontent with hfits hexp hexp'
  · -- The number lies in the binade of the float.
    obtain ⟨-, rfl, rfl⟩ := Binary64.finite.inj hcontent
    rw [contains_around_iff hm, dyadic_eq]
    by_cases hpower : m = 2 ^ 52 ∧ -1074 < q
    · have hone : quartersBelow m q = 1 := if_pos hpower
      have hge : (2 : ℚ) ^ 52 ≤ t := hle.resolve_left (by omega)
      rw [hone, hpower.1]
      push_cast
      refine ⟨?_, ?_, fun hmod => absurd hmod (by decide)⟩
      · nlinarith
      · rw [hpower.1] at hhigh
        push_cast at hhigh
        nlinarith
    · have htwo : quartersBelow m q = 2 := if_neg hpower
      rw [htwo]
      push_cast
      refine ⟨by nlinarith, by nlinarith, fun hmod => ?_⟩
      obtain ⟨hlt, hlt'⟩ := hstrict hmod
      exact ⟨by nlinarith, by nlinarith⟩
  · -- A carry: the float is the power of two at which the next binade begins.
    obtain ⟨-, rfl, rfl⟩ := Binary64.finite.inj hcontent
    have hge : (2 : ℚ) ^ 53 ≤ r := by exact_mod_cast not_lt.mp hfits
    have hone : quartersBelow (2 ^ 52) (k + 1) = 1 := if_pos ⟨rfl, by linarith [hbinade.smallest]⟩
    have hstep : (2 : ℚ) ^ (k + 1) = 2 * 2 ^ k := by
      rw [zpow_add_one₀ (by norm_num), mul_comm]
    rw [contains_around_iff hm, dyadic_eq, hone, hstep]
    push_cast
    exact ⟨by nlinarith, by nlinarith, fun hmod => absurd hmod (by decide)⟩

/-- A decimal reads back to a float just if it lies in its interval. -/
theorem holds_iff_toFloat {d : Decimal} (hd : 0 < d.significand) (hcanonical : Canonical m q)
    (hm : 0 < m) : (around m q).holds d = true ↔ ofFloat d.toFloat = .finite false m q := by
  rw [holds_iff]
  constructor
  · intro h
    exact (Decimal.isRounding_toFloat hd).unique (h.isRounding hcanonical hm)
  · intro h
    refine contains_of_isRounding hm ?_
    rw [← h]
    exact Decimal.isRounding_toFloat hd

end Around

end RoundingInterval
end Reckoner
