/-
Decimal digits, written and read.

The digits of a number read back to it, and a sequence of digits that does not begin with a zero is
written again as it was read. How many digits there are says between which powers of ten the number
lies.
-/
import Mathlib.Algebra.Order.Ring.Nat
import Mathlib.Data.List.Induction
import Reckoner.Decimal.Reading

set_option autoImplicit false

namespace Reckoner

/-- What is no digit does not stand among digits. -/
theorem ne_of_isDigit {c d : Char} (hc : c.isDigit = true) (hd : d.isDigit = false) : c ≠ d := by
  rintro rfl
  exact Bool.false_ne_true (hd.symm.trans hc)

/-! ## Reading -/

theorem natOfDigits_append (ds es : List Char) :
    natOfDigits (ds ++ es) = 10 ^ es.length * natOfDigits ds + natOfDigits es :=
  (Nat.ofDigitChars_append 0).trans Nat.ofDigitChars_eq_ofDigitChars_zero

theorem natOfDigits_zeros (n : Nat) : natOfDigits (List.replicate n '0') = 0 :=
  Nat.ofDigitChars_replicate_zero

/-- The digits of a number read back to it. -/
theorem natOfDigits_toDigits (n : Nat) : natOfDigits (Nat.toDigits 10 n) = n :=
  Nat.ofDigitChars_ten_toDigits

/-- A digit counts for less than the base. -/
theorem natOfDigits_lt {ds : List Char} (hall : ∀ d ∈ ds, d.isDigit = true) :
    natOfDigits ds < 10 ^ ds.length := by
  induction ds with
  | nil => exact Nat.one_pos
  | cons d ds ih =>
    obtain ⟨hd, hds⟩ := List.forall_mem_cons.mp hall
    have hone : natOfDigits [d] ≤ 9 := by
      have hcode : d.toNat ≤ 57 := (Char.isDigit_iff_toNat.mp hd).2
      show 10 * 0 + (d.toNat - 48) ≤ 9
      omega
    have hsplit : natOfDigits (d :: ds) = 10 ^ ds.length * natOfDigits [d] + natOfDigits ds :=
      natOfDigits_append [d] ds
    have hfirst : 10 ^ ds.length * natOfDigits [d] ≤ 10 ^ ds.length * 9 :=
      Nat.mul_le_mul_left _ hone
    have hrest := ih hds
    rw [hsplit, List.length_cons, pow_succ]
    omega

/-- The first digits of a number, filled up with zeros, are the number rounded down. -/
theorem natOfDigits_take_bounds {ds : List Char} (hall : ∀ d ∈ ds, d.isDigit = true) (k : Nat) :
    natOfDigits (ds.take k) * 10 ^ (ds.length - k) ≤ natOfDigits ds ∧
      natOfDigits ds < (natOfDigits (ds.take k) + 1) * 10 ^ (ds.length - k) := by
  have hsplit : natOfDigits ds =
      10 ^ (ds.length - k) * natOfDigits (ds.take k) + natOfDigits (ds.drop k) := by
    rw [← List.length_drop, ← natOfDigits_append, List.take_append_drop]
  have hdropped : natOfDigits (ds.drop k) < 10 ^ (ds.length - k) := by
    rw [← List.length_drop]
    exact natOfDigits_lt fun d hd => hall d (List.mem_of_mem_drop hd)
  rw [hsplit, Nat.add_mul, Nat.one_mul, Nat.mul_comm (natOfDigits _)]
  omega

/-! ## Writing -/

theorem isDigit_of_mem_toDigits {n : Nat} {c : Char} (h : c ∈ Nat.toDigits 10 n) :
    c.isDigit = true :=
  Nat.isDigit_of_mem_toDigits (by decide) (by decide) h

/-- The digits of a number give its place among the powers of ten. -/
theorem toDigits_bounds {n : Nat} (hn : 0 < n) :
    10 ^ ((Nat.toDigits 10 n).length - 1) ≤ n ∧ n < 10 ^ (Nat.toDigits 10 n).length := by
  have hpos : 0 < (Nat.toDigits 10 n).length := Nat.length_toDigits_pos
  refine ⟨?_, (Nat.length_toDigits_le_iff (by decide) hpos).mp (Nat.le_refl _)⟩
  rcases Nat.eq_zero_or_pos ((Nat.toDigits 10 n).length - 1) with hone | hmore
  · rw [hone]
    exact hn
  · -- With one digit less the number would be below this power.
    refine Nat.le_of_not_lt fun hlt => ?_
    have := (Nat.length_toDigits_le_iff (by decide) hmore).mpr hlt
    omega

/-- A digit is the character of its value. -/
theorem digitChar_of_isDigit {d : Char} (hd : d.isDigit = true) :
    d.toNat - '0'.toNat < 10 ∧ (d.toNat - '0'.toNat).digitChar = d := by
  have hrange : 48 ≤ d.toNat ∧ d.toNat ≤ 57 := Char.isDigit_iff_toNat.mp hd
  have hlt : d.toNat - 48 < 10 := by omega
  refine ⟨hlt, Char.toNat_inj.mp ?_⟩
  rw [show '0'.toNat = 48 from rfl, Nat.toNat_digitChar_of_lt_ten hlt]
  omega

/-- Digits that begin with no zero are those of the number they write. -/
theorem toDigits_natOfDigits {ds : List Char} (hall : ∀ d ∈ ds, d.isDigit = true)
    (hhead : ∀ d, ds.head? = some d → d ≠ '0') (hne : ds ≠ []) :
    0 < natOfDigits ds ∧ Nat.toDigits 10 (natOfDigits ds) = ds := by
  -- From the end, since that is where one more digit is written.
  induction ds using List.reverseRecOn with
  | nil => exact absurd rfl hne
  | append_singleton ds d ih =>
    obtain ⟨hlt, hchar⟩ := digitChar_of_isDigit (hall d (by simp))
    have hread : natOfDigits (ds ++ [d]) = 10 * natOfDigits ds + (d.toNat - '0'.toNat) := by
      simp [natOfDigits]
    rw [hread]
    by_cases hnil : ds = []
    · subst hnil
      have hzero : d.toNat - '0'.toNat ≠ 0 := by
        intro h
        rw [h] at hchar
        exact hhead d rfl hchar.symm
      have hone : 10 * natOfDigits [] + (d.toNat - '0'.toNat) = d.toNat - '0'.toNat := by
        simp [natOfDigits]
      rw [hone, Nat.toDigits_of_lt_base hlt, hchar]
      exact ⟨Nat.pos_of_ne_zero hzero, rfl⟩
    · have hhead' : ∀ c, ds.head? = some c → c ≠ '0' := by
        intro c hc
        exact hhead c (by rw [List.head?_append, hc, Option.some_or])
      obtain ⟨hpos, hdigits⟩ := ih (fun c hc => hall c (by simp [hc])) hhead' hnil
      refine ⟨by omega, ?_⟩
      rw [← Nat.toDigits_append_toDigits (by decide) hpos hlt, Nat.toDigits_of_lt_base hlt, hchar,
        hdigits]

/-- The digits of a positive number begin with no zero. -/
theorem toDigits_head_ne_zero {n : Nat} (hn : 0 < n) (d : Char)
    (hd : (Nat.toDigits 10 n).head? = some d) : d ≠ '0' := by
  induction n using Nat.strongRecOn with
  | ind n ih =>
    by_cases hlt : n < 10
    · rw [Nat.toDigits_of_lt_base hlt] at hd
      obtain rfl := Option.some.inj hd
      exact fun h => absurd (Nat.digitChar_eq_zero.mp h) (Nat.ne_of_gt hn)
    · obtain ⟨c, hc⟩ : ∃ c, (Nat.toDigits 10 (n / 10)).head? = some c :=
        Option.isSome_iff_exists.mp (List.isSome_head?.mpr Nat.toDigits_ne_nil)
      rw [Nat.toDigits_of_base_le (by decide) (Nat.le_of_not_lt hlt), List.head?_append, hc,
        Option.some_or] at hd
      obtain rfl := Option.some.inj hd
      exact ih (n / 10) (Nat.div_lt_self hn (by decide)) (by omega) hc

end Reckoner
