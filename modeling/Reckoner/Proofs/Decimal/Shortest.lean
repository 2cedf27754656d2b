/-
The search for the shortest decimal finds one.

Two neighbours on the grid of seventeen digits are closer to each other than the ends of the
interval around the float, so one of them lies in it. Below a power of two the interval is narrower,
but there the significand is as small as it can be, and the grid is finer in proportion.
-/
import Reckoner.Proofs.Decimal.Interval

set_option autoImplicit false

namespace Reckoner

namespace RoundingInterval

open Binary64

variable {m : Nat} {q : Int}

/-- Every float but zero is large enough for its digits to be counted. -/
theorem ten_zpow_le_dyadic (hcanonical : Canonical m q) (hm : 0 < m) :
    (10 : ℚ) ^ (-400 : Int) ≤ dyadic m q := by
  have height : (2 : ℚ) ^ (-1074 : Int) = ((8 : ℚ) ^ 358)⁻¹ := by
    rw [show (8 : ℚ) = 2 ^ 3 by norm_num, ← pow_mul]
    exact zpow_neg_coe_of_pos 2 (by decide)
  calc (10 : ℚ) ^ (-400 : Int) ≤ 10 ^ (-358 : Int) := zpow_le_zpow_right₀ (by norm_num) (by decide)
    _ = ((10 : ℚ) ^ 358)⁻¹ := zpow_neg_coe_of_pos 10 (by decide)
    _ ≤ ((8 : ℚ) ^ 358)⁻¹ :=
      inv_anti₀ (pow_pos (by norm_num) _) (pow_le_pow_left₀ (by norm_num) (by norm_num) _)
    _ = 2 ^ (-1074 : Int) := height.symm
    _ ≤ dyadic m q := smallest_le_dyadic hcanonical hm

/-- Of the two neighbours with seventeen digits, one lies in the interval. -/
theorem holds_seventeen (hcanonical : Canonical m q) (hm : 0 < m) :
    (around m q).holds (Decimal.floorOn (Decimal.order (dyadic m q) - 16) (dyadic m q)) = true ∨
      (around m q).holds
        (Decimal.floorOn (Decimal.order (dyadic m q) - 16) (dyadic m q)).next = true := by
  obtain ⟨k, hk⟩ : ∃ k, k = Decimal.order (dyadic m q) - 16 := ⟨_, rfl⟩
  rw [← hk]
  have hlow := Decimal.floorOn_le k (dyadic_pos hm q).le
  have hhigh := Decimal.lt_next_floorOn k (dyadic m q)
  have hnext := Decimal.toRat_next_floorOn k (dyadic m q)
  have hstep : (10 : ℚ) ^ k * 10 ^ 16 ≤ dyadic m q := by
    rw [← zpow_natCast, ← zpow_add₀ (by norm_num), hk, Nat.cast_ofNat, sub_add_cancel]
    exact (Decimal.order_bounds (ten_zpow_le_dyadic hcanonical hm)).1
  have hlast := two_zpow_pos q
  by_contra hnone
  obtain ⟨hnotlow, hnotnext⟩ := not_or.mp hnone
  have hfarlow : quartersBelow m q * 2 ^ q ≤
      4 * (dyadic m q - (Decimal.floorOn k (dyadic m q)).toRat) := by
    by_contra hlt
    exact hnotlow (holds_iff.mpr (contains_of_lt_below hm hlow (not_le.mp hlt)))
  have hfarnext : (2 : ℚ) ^ q ≤
      2 * ((Decimal.floorOn k (dyadic m q)).next.toRat - dyadic m q) := by
    by_contra hlt
    exact hnotnext (holds_iff.mpr (contains_of_lt_above hm hhigh.le (not_le.mp hlt)))
  -- So a step is at least as long as the interval, and the significand has too many places.
  have hwide : (quartersBelow m q + 2) * 2 ^ q ≤ 4 * (10 : ℚ) ^ k := by
    rw [hnext] at hfarnext
    linarith
  have hplaces : ((quartersBelow m q + 2) * 10 ^ 16 : ℚ) ≤ 4 * m := by
    rw [dyadic_eq] at hstep
    exact le_of_mul_le_mul_right (by linarith) hlast
  have hplaces' : (quartersBelow m q + 2) * 10 ^ 16 ≤ 4 * m := by exact_mod_cast hplaces
  have hm53 := hcanonical.lt
  unfold quartersBelow at hplaces'
  split at hplaces' <;> omega

theorem exists_nearestOn? {i : RoundingInterval} {x : ℚ} {k : Int}
    (h : i.holds (Decimal.floorOn k x) = true ∨ i.holds (Decimal.floorOn k x).next = true) :
    ∃ d, i.nearestOn? x k = some d := by
  unfold nearestOn?
  dsimp only
  split
  · exact ⟨_, rfl⟩
  · exact ⟨_, rfl⟩
  · exact ⟨_, rfl⟩
  · next hlow hnext =>
    rw [hlow, hnext] at h
    exact absurd h (by decide)

theorem holds_of_nearestOn? {i : RoundingInterval} {x : ℚ} {k : Int} {d : Decimal}
    (h : i.nearestOn? x k = some d) : i.holds d = true := by
  unfold nearestOn? at h
  dsimp only at h
  split at h
  · next hlow hnext =>
    obtain rfl := Option.some.inj h
    split
    · exact hlow
    · exact hnext
  · next hlow _ =>
    obtain rfl := Option.some.inj h
    exact hlow
  · next _ hnext =>
    obtain rfl := Option.some.inj h
    exact hnext
  · cases h

/-- The shortest decimal lies in the interval of its float. -/
theorem holds_shortest (hcanonical : Canonical m q) (hm : 0 < m) :
    (around m q).holds (Decimal.shortest m q) = true := by
  obtain ⟨d, hd⟩ := exists_nearestOn? (holds_seventeen hcanonical hm)
  have hfound : ((List.range 17).findSome? fun (n : Nat) => (around m q).nearestOn? (dyadic m q)
      (Decimal.order (dyadic m q) - (n : Int))).isSome = true := by
    refine List.findSome?_isSome_iff.mpr ⟨16, List.mem_range.mpr (by decide), ?_⟩
    exact Option.isSome_iff_exists.mpr ⟨d, hd⟩
  obtain ⟨d', hd'⟩ := Option.isSome_iff_exists.mp hfound
  obtain ⟨n, -, hn⟩ := List.exists_of_findSome?_eq_some hd'
  -- The search stops at the latest on the grid of seventeen digits, so the default is not taken.
  have hshortest : Decimal.shortest m q = d' := by
    rw [Decimal.shortest, hd', Option.getD_some]
  rw [hshortest]
  exact holds_of_nearestOn? hn

end RoundingInterval
end Reckoner
