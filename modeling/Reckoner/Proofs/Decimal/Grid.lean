/-
Decimals as rational numbers, and the two neighbours of a number on a grid of decimals.

The points with exponent `k` are the multiples of `10^k`. A positive number lies between its lower
neighbour and the next point, and less than one step above the lower one. The order of a number is
the power of ten that it begins with, found by counting digits after a shift that makes every number
from `10^(-400)` on at least 1.
-/
import Mathlib.Algebra.Order.Field.Power
import Mathlib.Algebra.Order.Floor.Ring
import Mathlib.Data.Rat.Floor
import Mathlib.Tactic.Linarith
import Reckoner.Proofs.Decimal.Digits

set_option autoImplicit false

namespace Reckoner

theorem ten_zpow_pos (k : Int) : (0 : ℚ) < 10 ^ k :=
  zpow_pos (by norm_num) k

namespace Decimal

/-! ## The number a decimal stands for -/

/-- A decimal is its significand times a power of ten, also where the exponent is negative. -/
theorem toRat_eq (d : Decimal) : d.toRat = d.significand * (10 : ℚ) ^ d.exponent := by
  unfold toRat
  split
  · next h =>
    have hexp : (10 : ℚ) ^ d.exponent = 10 ^ d.exponent.toNat := by
      rw [← zpow_natCast, Int.toNat_of_nonneg h]
    rw [Rat.mkRat_one, hexp, Nat.pow_eq]
    push_cast
    rfl
  · next h =>
    have hexp : (10 : ℚ) ^ d.exponent = (10 ^ (-d.exponent).toNat)⁻¹ := by
      rw [← zpow_natCast, Int.toNat_of_nonneg (by omega), zpow_neg, inv_inv]
    rw [Rat.mkRat_eq_div, hexp, div_eq_mul_inv, Nat.pow_eq]
    push_cast
    rfl

theorem toRat_mk (n : Nat) (k : Int) : toRat ⟨n, k⟩ = n * (10 : ℚ) ^ k :=
  toRat_eq ⟨n, k⟩

/-- The next decimal with the same exponent is one step above. -/
theorem toRat_next (d : Decimal) : d.next.toRat = d.toRat + 10 ^ d.exponent := by
  rw [toRat_eq, toRat_eq, next]
  push_cast
  ring

/-! ## Neighbours -/

section Neighbours

variable {x : ℚ}

/-- The lower neighbour is the number of whole steps below `x`. -/
theorem toRat_floorOn (k : Int) (x : ℚ) :
    (floorOn k x).toRat = (⌊x / 10 ^ k⌋.toNat : ℚ) * 10 ^ k := by
  rw [floorOn, toRat_mk, toRat_mk, Nat.cast_one, one_mul]
  rfl

/-- The two neighbours are one step apart. -/
theorem toRat_next_floorOn (k : Int) (x : ℚ) :
    (floorOn k x).next.toRat = (floorOn k x).toRat + 10 ^ k :=
  toRat_next _

/-- The lower neighbour is not above the number. -/
theorem floorOn_le (k : Int) (hx : 0 ≤ x) : (floorOn k x).toRat ≤ x := by
  have hpos := ten_zpow_pos k
  have hfloor : (0 : Int) ≤ ⌊x / 10 ^ k⌋ := Int.floor_nonneg.mpr (div_nonneg hx hpos.le)
  have hcast : ((⌊x / 10 ^ k⌋.toNat : Nat) : ℚ) = (⌊x / 10 ^ k⌋ : ℚ) := by
    exact_mod_cast congrArg (Int.cast : Int → ℚ) (Int.toNat_of_nonneg hfloor)
  rw [toRat_floorOn, hcast, ← le_div_iff₀ hpos]
  exact Int.floor_le _

/-- The upper neighbour is above it, also where the number is a point of the grid itself. -/
theorem lt_next_floorOn (k : Int) (x : ℚ) : x < (floorOn k x).next.toRat := by
  have hpos := ten_zpow_pos k
  have hle : (⌊x / 10 ^ k⌋ : ℚ) ≤ ((⌊x / 10 ^ k⌋.toNat : Nat) : ℚ) := by
    exact_mod_cast Int.self_le_toNat ⌊x / 10 ^ k⌋
  have hlt : x / 10 ^ k < ((⌊x / 10 ^ k⌋.toNat : Nat) : ℚ) + 1 := by
    have := Int.lt_floor_add_one (x / 10 ^ k)
    linarith
  rw [toRat_next_floorOn, toRat_floorOn, ← add_one_mul]
  exact (div_lt_iff₀ hpos).mp hlt

/-- No point of the grid lies between a number and its lower neighbour. -/
theorem le_floorOn {k : Int} {n : Nat} (h : (n : ℚ) * 10 ^ k ≤ x) :
    (n : ℚ) * 10 ^ k ≤ (floorOn k x).toRat := by
  have hpos := ten_zpow_pos k
  have hle : (n : Int) ≤ ⌊x / 10 ^ k⌋ := by
    rw [Int.le_floor]
    exact (le_div_iff₀ hpos).mpr (by exact_mod_cast h)
  have hnat : (n : ℚ) ≤ ((⌊x / 10 ^ k⌋.toNat : Nat) : ℚ) := by
    exact_mod_cast (Int.le_toNat (Int.le_trans (Int.natCast_nonneg n) hle)).mpr hle
  rw [toRat_floorOn]
  exact mul_le_mul_of_nonneg_right hnat hpos.le

/-- Nor between the number and the next point. -/
theorem next_floorOn_le {k : Int} {n : Nat} (hx : 0 ≤ x) (h : x < (n : ℚ) * 10 ^ k) :
    (floorOn k x).next.toRat ≤ (n : ℚ) * 10 ^ k := by
  have hpos := ten_zpow_pos k
  have hbelow : (⌊x / 10 ^ k⌋.toNat : ℚ) * 10 ^ k < n * 10 ^ k := by
    rw [← toRat_floorOn]
    exact lt_of_le_of_lt (floorOn_le k hx) h
  have hlt : ⌊x / 10 ^ k⌋.toNat < n := by
    exact_mod_cast lt_of_mul_lt_mul_right hbelow hpos.le
  have hsucc : ((⌊x / 10 ^ k⌋.toNat : Nat) : ℚ) + 1 ≤ n := by
    exact_mod_cast hlt
  rw [toRat_next_floorOn, toRat_floorOn, ← add_one_mul]
  exact mul_le_mul_of_nonneg_right hsucc hpos.le

/-! ## Order -/

/-- The order of a number is the power of ten that it begins with. -/
theorem order_bounds (hx : (10 : ℚ) ^ (-400 : Int) ≤ x) :
    (10 : ℚ) ^ order x ≤ x ∧ x < 10 ^ (order x + 1) := by
  have hx0 : 0 ≤ x := le_trans (ten_zpow_pos _).le hx
  -- The shifted number without its fraction, and the digits that are counted.
  set n := (floorOn (-400) x).significand with hn
  have hfloor : (floorOn (-400) x).toRat = n * (10 : ℚ) ^ (-400 : Int) := toRat_eq _
  have hnpos : 0 < n := by
    have hone := le_floorOn (x := x) (k := -400) (n := 1) (by rwa [Nat.cast_one, one_mul])
    rw [hfloor] at hone
    exact_mod_cast lt_of_lt_of_le zero_lt_one (le_of_mul_le_mul_right hone (ten_zpow_pos _))
  obtain ⟨hlow, hhigh⟩ := toDigits_bounds hnpos
  have hlen : 0 < (Nat.toDigits 10 n).length := Nat.length_toDigits_pos
  have horder : order x = ((Nat.toDigits 10 n).length : Int) - 401 := rfl
  have hten : (10 : ℚ) ≠ 0 := by norm_num
  constructor
  · have hpow : (10 : ℚ) ^ order x =
        10 ^ ((Nat.toDigits 10 n).length - 1) * (10 : ℚ) ^ (-400 : Int) := by
      rw [← zpow_natCast, ← zpow_add₀ hten, horder]
      congr 1
      omega
    have hle : (10 : ℚ) ^ ((Nat.toDigits 10 n).length - 1) ≤ n := by exact_mod_cast hlow
    rw [hpow]
    refine le_trans (mul_le_mul_of_nonneg_right hle (ten_zpow_pos _).le) ?_
    rw [← hfloor]
    exact floorOn_le _ hx0
  · have hpow : (10 : ℚ) ^ (order x + 1) =
        10 ^ (Nat.toDigits 10 n).length * (10 : ℚ) ^ (-400 : Int) := by
      rw [← zpow_natCast, ← zpow_add₀ hten, horder]
      congr 1
      omega
    have hle : (n : ℚ) + 1 ≤ 10 ^ (Nat.toDigits 10 n).length := by exact_mod_cast hhigh
    rw [hpow]
    refine lt_of_lt_of_le (lt_next_floorOn (-400) x) ?_
    rw [toRat_next_floorOn, hfloor, ← add_one_mul]
    exact mul_le_mul_of_nonneg_right hle (ten_zpow_pos _).le

end Neighbours

end Decimal
end Reckoner
