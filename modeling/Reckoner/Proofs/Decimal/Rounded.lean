/-
Rounding to sixteen digits twice.

Sixteen digits do not tell every float apart, so the decimal `d` that a float `x` is rounded to is
read as another float `y`. What has to be shown is that rounding `y` gives a decimal that is read as
`y` again. It need not be `d`: the order of `y` may be another than that of `x`, and then so is the
grid.

In every case some point of the grid of `y`, on the same side as `d`, lies between `d` and `y` and
so is read as `y`. The nearest point of the grid is closer to `y`, and the interval reaches as far
above `y` as below. The exception is a power of two, where it is narrower below: then the grid is
shown to be finer too, or `x` would have to be `y`.
-/
import Reckoner.Proofs.Decimal.Shortest

set_option autoImplicit false

namespace Reckoner

open Binary64

theorem natCast_ten_pow_mul {i : Nat} {j k : Int} (h : j = i + k) :
    (10 : ℚ) ^ j = (10 ^ i : Nat) * 10 ^ k := by
  rw [h, zpow_add₀ (by norm_num), zpow_natCast]
  push_cast
  rfl

/-! ## Rounding to a number of digits -/

namespace Decimal

variable {x : ℚ} {k : Int}

/-- The result is one of the neighbours, at most half a step away, and even if it is just that. -/
theorem rounded_cases (n : Nat) (x : ℚ) (hk : k = order x - n + 1) :
    (rounded n x = floorOn k x ∧ 2 * (x - (floorOn k x).toRat) ≤ 10 ^ k ∧
        (2 * (x - (floorOn k x).toRat) = 10 ^ k → (floorOn k x).significand % 2 = 0)) ∨
      (rounded n x = (floorOn k x).next ∧ (10 : ℚ) ^ k ≤ 2 * (x - (floorOn k x).toRat)) := by
  have hnext := toRat_next_floorOn k x
  rw [rounded, ← hk, hnext]
  split
  · next hcloser =>
    refine Or.inl ⟨rfl, ?_, fun htie => ?_⟩
    · rcases hcloser with hlt | ⟨heq, -⟩ <;> linarith
    · rcases hcloser with hlt | ⟨-, heven⟩
      · linarith
      · exact heven
  · next hfarther =>
    refine Or.inr ⟨rfl, ?_⟩
    have hle := not_lt.mp (not_or.mp hfarther).1
    linarith

/-- What is rounded down is no further than half a step from the lower neighbour. -/
theorem sub_floorOn_le {n : Nat} (hk : k = order x - n + 1) (h : rounded n x = floorOn k x) :
    2 * (x - (floorOn k x).toRat) ≤ 10 ^ k ∧
      (2 * (x - (floorOn k x).toRat) = 10 ^ k → (floorOn k x).significand % 2 = 0) := by
  rcases rounded_cases n x hk with ⟨-, hclose⟩ | ⟨heq, -⟩
  · exact hclose
  · -- The neighbours are different points.
    have hnext := toRat_next_floorOn k x
    have hsame := congrArg toRat (h.symm.trans heq)
    linarith [ten_zpow_pos k]

/-- A neighbour of a number between two points of the grid is not beyond them. -/
theorem rounded_le {n i : Nat} (hx : 0 ≤ x) (hk : k = order x - n + 1)
    (h : x < (i : ℚ) * 10 ^ k) : (rounded n x).toRat ≤ i * 10 ^ k := by
  have hnext := next_floorOn_le hx h
  rcases rounded_cases n x hk with ⟨heq, -⟩ | ⟨heq, -⟩
  · rw [heq]
    exact ((floorOn_le k hx).trans_lt h).le
  · rw [heq]
    exact hnext

theorem le_rounded {n i : Nat} (hk : k = order x - n + 1) (h : (i : ℚ) * 10 ^ k ≤ x) :
    (i : ℚ) * 10 ^ k ≤ (rounded n x).toRat := by
  have hlow := le_floorOn h
  rcases rounded_cases n x hk with ⟨heq, -⟩ | ⟨heq, -⟩
  · rw [heq]
    exact hlow
  · have hnext := toRat_next_floorOn k x
    have hpos := ten_zpow_pos k
    rw [heq, hnext]
    linarith

/-- Sixteen digits are far closer than a factor of two. -/
theorem rounded_bounds (h : (10 : ℚ) ^ (-400 : Int) ≤ x) :
    x < 2 * (rounded 16 x).toRat ∧ (rounded 16 x).toRat ≤ 2 * x := by
  obtain ⟨k, hk⟩ : ∃ k, k = order x - 16 + 1 := ⟨_, rfl⟩
  have hx : 0 < x := (ten_zpow_pos _).trans_le h
  have hdown := floorOn_le k hx.le
  have hup := lt_next_floorOn k x
  have hnext := toRat_next_floorOn k x
  have hstep : 2 * (10 : ℚ) ^ k ≤ x := by
    have hpower : (10 : ℚ) ^ order x = (10 ^ 15 : Nat) * 10 ^ k := natCast_ten_pow_mul (by omega)
    have hlow := (order_bounds h).1
    rw [hpower] at hlow
    push_cast at hlow
    linarith [ten_zpow_pos k]
  rcases rounded_cases 16 x hk with ⟨heq, hclose, -⟩ | ⟨heq, -⟩
  · rw [heq]
    exact ⟨by linarith, by linarith⟩
  · rw [heq]
    exact ⟨by linarith, by linarith⟩

theorem exponent_rounded {n : Nat} (hk : k = order x - n + 1) : (rounded n x).exponent = k := by
  rcases rounded_cases n x hk with ⟨heq, -⟩ | ⟨heq, -⟩ <;> rw [heq] <;> rfl

/-- Let `y` be rounded down, and let `x` be rounded to a point above `y` on the same grid, less than
half a last place away. Then `x` is less than a last place above `y`. -/
theorem lt_of_rounded_eq_floorOn {x y u : ℚ} {k : Int} (hx : 0 ≤ x) (hy : 0 ≤ y)
    (hkx : k = order x - 16 + 1) (hky : k = order y - 16 + 1) (hlow : rounded 16 y = floorOn k y)
    (habove : y < (rounded 16 x).toRat) (hhalf : 2 * ((rounded 16 x).toRat - y) ≤ u) :
    y < x ∧ x < y + u := by
  -- The decimal is a point of the grid, so it is not below the next one.
  have hpoint : (rounded 16 x).toRat = (rounded 16 x).significand * 10 ^ k := by
    rw [toRat_eq, exponent_rounded hkx]
  have hle : (floorOn k y).next.toRat ≤ (rounded 16 x).toRat := by
    rw [hpoint] at habove ⊢
    exact next_floorOn_le hy habove
  have hnexty := toRat_next_floorOn k y
  have hnextx := toRat_next_floorOn k x
  have hdowny := floorOn_le k hy
  have hdownx := floorOn_le k hx
  have hupx := lt_next_floorOn k x
  have hstep := ten_zpow_pos k
  obtain ⟨hclose, heven⟩ := sub_floorOn_le hky hlow
  have hne : x ≠ y := by
    rintro rfl
    rw [hlow] at habove
    exact absurd habove (not_lt.mpr hdownx)
  rcases rounded_cases 16 x hkx with ⟨heq, hclosex, hevenx⟩ | ⟨heq, hfarx⟩
  · -- Rounded down, `x` is above the decimal and with it above `y`.
    rw [heq] at habove hhalf hle
    refine ⟨habove.trans_le hdownx, lt_of_not_ge fun hge => ?_⟩
    -- Now both are half way between the same two points, and both went to the even one.
    have htiey : 2 * (y - (floorOn k y).toRat) = 10 ^ k := by linarith
    have htiex : 2 * (x - (floorOn k x).toRat) = 10 ^ k := by linarith
    have hvalue : (floorOn k x).toRat = (floorOn k y).next.toRat := by linarith
    have hsignificand : (floorOn k x).significand = (floorOn k y).significand + 1 := by
      rw [toRat_eq, toRat_eq] at hvalue
      have hcast := mul_right_cancel₀ hstep.ne' hvalue
      exact_mod_cast hcast
    have := hevenx htiex
    have := heven htiey
    omega
  · -- Rounded up, `x` would be nearer to the point below `y` if it were itself below `y`.
    rw [heq] at habove hhalf hle
    refine ⟨lt_of_le_of_ne (le_of_not_gt fun hlt => ?_) hne.symm, by linarith⟩
    linarith

end Decimal

/-! ## Floats are a last place apart -/

theorem dyadic_add_le {m n : Nat} {q r : Int} (hx : Canonical m q) (hy : Canonical n r)
    (h : dyadic n r < dyadic m q) : dyadic n r + 2 ^ r ≤ dyadic m q := by
  rw [dyadic_eq, dyadic_eq] at h ⊢
  have hpos := two_zpow_pos r
  rcases Int.lt_or_le q r with hlt | hle
  · -- A smaller exponent would make the number smaller.
    have hn : 2 ^ 52 ≤ n := by
      rcases hy with ⟨-, rfl⟩ | ⟨hn, -⟩
      · exact absurd hx.le (not_le.mpr hlt)
      · exact hn
    have hm := hx.lt
    have hstep : 2 * (2 : ℚ) ^ q ≤ 2 ^ r := by
      rw [← zpow_one_add₀ (by norm_num)]
      exact zpow_le_zpow_right₀ (by norm_num) (by omega)
    have hn' : (2 : ℚ) ^ 52 ≤ n := by exact_mod_cast hn
    have hm' : (m : ℚ) ≤ 2 ^ 53 := by exact_mod_cast hm.le
    have hmul := mul_le_mul_of_nonneg_right hm' (two_zpow_pos q).le
    have hmul' := mul_le_mul_of_nonneg_right hn' hpos.le
    linarith
  · -- Otherwise both are whole numbers of the same last places.
    obtain ⟨i, hi⟩ : ∃ i : Nat, q = r + i := ⟨(q - r).toNat, by omega⟩
    have hpow : (2 : ℚ) ^ q = 2 ^ i * 2 ^ r := by
      rw [hi, zpow_add₀ (by norm_num), zpow_natCast, mul_comm]
    rw [hpow, ← mul_assoc] at h ⊢
    have hlt : (n : ℚ) < m * 2 ^ i := lt_of_mul_lt_mul_right h hpos.le
    have hlt' : n < m * 2 ^ i := by exact_mod_cast hlt
    have hle' : (n : ℚ) + 1 ≤ m * 2 ^ i := by exact_mod_cast hlt'
    have hmul := mul_le_mul_of_nonneg_right hle' hpos.le
    linarith

/-! ## Points closer to the float -/

namespace RoundingInterval

variable {m : Nat} {q : Int} {a b : ℚ}

/-- The interval reaches at least as far above the float as below. -/
theorem Contains.above (hm : 0 < m) (h : (around m q).Contains a)
    (hb : dyadic m q ≤ b) (hcloser : b - dyadic m q ≤ dyadic m q - a) :
    (around m q).Contains b := by
  obtain ⟨hbelow, -, hodd⟩ := (contains_around_iff hm).mp h
  have hpos := two_zpow_pos q
  have hquarters : (quartersBelow m q : ℚ) * 2 ^ q ≤ 2 * 2 ^ q :=
    mul_le_mul_of_nonneg_right (by exact_mod_cast quartersBelow_le m q) hpos.le
  have hquarters' : (0 : ℚ) < quartersBelow m q * 2 ^ q :=
    mul_pos (by exact_mod_cast quartersBelow_pos m q) hpos
  refine (contains_around_iff hm).mpr ⟨by linarith, by linarith, fun hmod => ?_⟩
  obtain ⟨hlt, -⟩ := hodd hmod
  exact ⟨by linarith, by linarith⟩

/-- And just as far below as above, except at a power of two. -/
theorem Contains.below (hm : 0 < m) (h : (around m q).Contains b)
    (ha : a ≤ dyadic m q) (hcloser : dyadic m q - a ≤ b - dyadic m q)
    (hpower : quartersBelow m q = 1 → 4 * (dyadic m q - a) ≤ 2 ^ q) :
    (around m q).Contains a := by
  obtain ⟨-, habove, hodd⟩ := (contains_around_iff hm).mp h
  have hpos := two_zpow_pos q
  rw [contains_around_iff hm]
  by_cases hm52 : m = 2 ^ 52 ∧ -1074 < q
  · have hone : quartersBelow m q = 1 := if_pos hm52
    have hclose := hpower hone
    rw [hone, Nat.cast_one, one_mul]
    refine ⟨hclose, by linarith, fun hmod => ?_⟩
    rw [hm52.1] at hmod
    exact absurd hmod (by decide)
  · have htwo : quartersBelow m q = 2 := if_neg hm52
    rw [htwo]
    push_cast
    refine ⟨by linarith, by linarith, fun hmod => ?_⟩
    obtain ⟨-, hlt⟩ := hodd hmod
    exact ⟨by linarith, by linarith⟩

/-! ## The nearest point of the grid -/

section Nearest

variable {k : Int} {i : Nat} (hm : 0 < m) (hk : k = Decimal.order (dyadic m q) - 16 + 1)

include hm hk

/-- With a point of the grid below the float, the nearest one lies in the interval. -/
theorem contains_rounded_of_le (h : (around m q).Contains (i * 10 ^ k))
    (hle : (i : ℚ) * 10 ^ k ≤ dyadic m q) :
    (around m q).Contains (Decimal.rounded 16 (dyadic m q)).toRat := by
  have hlow := Decimal.floorOn_le k (dyadic_pos hm q).le
  have hhigh := Decimal.lt_next_floorOn k (dyadic m q)
  have hnext := Decimal.toRat_next_floorOn k (dyadic m q)
  have hcontains := h.between (contains_dyadic hm) (Decimal.le_floorOn hle) hlow
  rcases Decimal.rounded_cases 16 (dyadic m q) hk with ⟨heq, -⟩ | ⟨heq, hfar⟩
  · rw [heq]
    exact hcontains
  · rw [heq]
    exact hcontains.above hm hhigh.le (by linarith)

/-- With a point of the grid above it, too, if at a power of two the one below is close enough. -/
theorem contains_rounded_of_lt (h : (around m q).Contains (i * 10 ^ k))
    (hlt : dyadic m q < (i : ℚ) * 10 ^ k)
    (hpower : quartersBelow m q = 1 →
      Decimal.rounded 16 (dyadic m q) = Decimal.floorOn k (dyadic m q) →
        4 * (dyadic m q - (Decimal.floorOn k (dyadic m q)).toRat) ≤ 2 ^ q) :
    (around m q).Contains (Decimal.rounded 16 (dyadic m q)).toRat := by
  have hlow := Decimal.floorOn_le k (dyadic_pos hm q).le
  have hhigh := Decimal.lt_next_floorOn k (dyadic m q)
  have hnext := Decimal.toRat_next_floorOn k (dyadic m q)
  have hcontains := (contains_dyadic hm).between h hhigh.le
    (Decimal.next_floorOn_le (dyadic_pos hm q).le hlt)
  rcases Decimal.rounded_cases 16 (dyadic m q) hk with ⟨heq, hclose, -⟩ | ⟨heq, -⟩
  · rw [heq]
    exact hcontains.below hm hlow (by linarith) fun hone => hpower hone heq
  · rw [heq]
    exact hcontains

end Nearest

/-! ## The decimal of another float -/

section Twice

variable {n : Nat} {r j k : Int} (hx : Canonical n r) (hn : 0 < n) (hy : Canonical m q) (hm : 0 < m)
  (hj : j = Decimal.order (dyadic n r) - 16 + 1) (hk : k = Decimal.order (dyadic m q) - 16 + 1)
  (h : (around m q).Contains (Decimal.rounded 16 (dyadic n r)).toRat)

include hx hn hy hm hj hk h

/-- On a coarser grid, the power of ten that the float begins with lies between. -/
theorem contains_rounded_of_coarser (hlt : j < k) :
    (around m q).Contains (Decimal.rounded 16 (dyadic m q)).toRat := by
  have hpower : (10 : ℚ) ^ Decimal.order (dyadic m q) = (10 ^ 15 : Nat) * 10 ^ k :=
    natCast_ten_pow_mul (by omega)
  have hpower' : (10 : ℚ) ^ Decimal.order (dyadic m q) = (10 ^ (k - j + 15).toNat : Nat) * 10 ^ j :=
    natCast_ten_pow_mul (by omega)
  have hlow := (Decimal.order_bounds (ten_zpow_le_dyadic hy hm)).1
  have hbelow : dyadic n r < 10 ^ Decimal.order (dyadic m q) :=
    (Decimal.order_bounds (ten_zpow_le_dyadic hx hn)).2.trans_le
      (zpow_le_zpow_right₀ (by norm_num) (by omega))
  have hdecimal := Decimal.rounded_le (n := 16) (dyadic_pos hn r).le hj
    (by rw [← hpower']; exact hbelow)
  rw [← hpower'] at hdecimal
  have hbetween := h.between (contains_dyadic hm) hdecimal hlow
  rw [hpower] at hbetween hlow
  exact contains_rounded_of_le hm hk hbetween hlow

/-- On the same grid, the decimal itself is a point. -/
theorem contains_rounded_of_same (hsame : j = k) :
    (around m q).Contains (Decimal.rounded 16 (dyadic m q)).toRat := by
  subst hsame
  have hpoint : (Decimal.rounded 16 (dyadic n r)).toRat =
      (Decimal.rounded 16 (dyadic n r)).significand * 10 ^ j := by
    rw [Decimal.toRat_eq, Decimal.exponent_rounded hj]
  rcases le_or_gt (Decimal.rounded 16 (dyadic n r)).toRat (dyadic m q) with hle | hgt
  · rw [hpoint] at h hle
    exact contains_rounded_of_le hm hk h hle
  · refine contains_rounded_of_lt hm hk (hpoint ▸ h) (hpoint ▸ hgt) fun _ hdown => ?_
    -- There is no float between, so this one was not rounded down.
    have hhalf := ((contains_around_iff hm).mp h).2.1
    obtain ⟨hgreater, hclose⟩ := Decimal.lt_of_rounded_eq_floorOn (dyadic_pos hn r).le
      (dyadic_pos hm q).le hj hk hdown hgt hhalf
    exact absurd (dyadic_add_le hx hy hgreater) (not_le.mpr hclose)

/-- On a finer grid, the power of ten above the float lies between. -/
theorem contains_rounded_of_finer (hgt : k < j) :
    (around m q).Contains (Decimal.rounded 16 (dyadic m q)).toRat := by
  have hpower : (10 : ℚ) ^ (Decimal.order (dyadic m q) + 1) = (10 ^ 16 : Nat) * 10 ^ k :=
    natCast_ten_pow_mul (by omega)
  have hpower' : (10 : ℚ) ^ Decimal.order (dyadic n r) = (10 ^ 15 : Nat) * 10 ^ j :=
    natCast_ten_pow_mul (by omega)
  have hhigh := (Decimal.order_bounds (ten_zpow_le_dyadic hy hm)).2
  have hdecimal : (10 : ℚ) ^ Decimal.order (dyadic n r) ≤
      (Decimal.rounded 16 (dyadic n r)).toRat := by
    have hlow := (Decimal.order_bounds (ten_zpow_le_dyadic hx hn)).1
    rw [hpower'] at hlow ⊢
    exact Decimal.le_rounded hj hlow
  have hle : (10 : ℚ) ^ (Decimal.order (dyadic m q) + 1) ≤
      (Decimal.rounded 16 (dyadic n r)).toRat :=
    (zpow_le_zpow_right₀ (by norm_num) (by omega)).trans hdecimal
  have hbetween := (contains_dyadic hm).between h hhigh.le hle
  rw [hpower] at hbetween hhigh
  refine contains_rounded_of_lt hm hk hbetween hhigh fun hone hdown => ?_
  -- At a power of two so close to a power of ten, half a step is less than a quarter of a place.
  have hm52 : m = 2 ^ 52 := by
    unfold quartersBelow at hone
    split at hone
    · next h => exact h.1
    · cases hone
  have hvalue : dyadic m q = 2 ^ 52 * 2 ^ q := by
    rw [dyadic_eq, hm52]
    push_cast
    rfl
  have hhalf := ((contains_around_iff hm).mp hbetween).2.1
  push_cast at hhalf
  have hclose := (Decimal.sub_floorOn_le hk hdown).1
  linarith [two_zpow_pos q]

end Twice

/-- The decimal that a float is rounded to is read as another float. The decimal that the other
float is rounded to is read as that float again. -/
theorem contains_rounded {n : Nat} {r : Int} (hx : Canonical n r) (hn : 0 < n) (hy : Canonical m q)
    (hm : 0 < m) (h : (around m q).Contains (Decimal.rounded 16 (dyadic n r)).toRat) :
    (around m q).Contains (Decimal.rounded 16 (dyadic m q)).toRat := by
  rcases lt_trichotomy (Decimal.order (dyadic n r)) (Decimal.order (dyadic m q)) with
    hlt | heq | hgt
  · exact contains_rounded_of_coarser hx hn hy hm rfl rfl h (by omega)
  · exact contains_rounded_of_same hx hn hy hm rfl rfl h (by omega)
  · exact contains_rounded_of_finer hx hn hy hm rfl rfl h (by omega)

end RoundingInterval
end Reckoner
