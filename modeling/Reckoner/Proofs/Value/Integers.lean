/-
Whole numbers as integers.

The operators on whole numbers are compared with those of the integers, which are partial here: there
is no quotient, no remainder by zero, and no power with a negative exponent. Where an operation on
values gives a whole number, it is the one of the integers. Conversely, an operation of the integers
that is defined gives a whole number, and only a power that would be too long does not.
-/
import Mathlib.Data.List.Induction
import Mathlib.Data.Nat.Digits.Defs
import Mathlib.Data.Nat.Size
import Reckoner.Proofs.Decimal.Digits
import Reckoner.Value.Arithmetic

set_option autoImplicit false

namespace Reckoner

/-! ## Numerals -/

/-- The number that digits write in base ten, the first one counting most. -/
def decimalReading (digits : List Char) : Nat :=
  Nat.ofDigits 10 (digits.reverse.map fun d => d.toNat - '0'.toNat)

theorem natOfDigits_eq_decimalReading (digits : List Char) :
    natOfDigits digits = decimalReading digits := by
  -- The reader folds from the left, so the last digit is the one it adds.
  induction digits using List.reverseRecOn with
  | nil => rfl
  | append_singleton digits d ih =>
    unfold natOfDigits decimalReading at ih ⊢
    rw [List.foldl_append, ih, List.reverse_concat, List.map_cons, Nat.ofDigits_cons]
    exact Nat.add_comm _ _

/-- A numeral of digits is whole, and has the value that the digits write. -/
theorem Value.ofNumeral?_of_digits {text : String} (hne : text.toList ≠ [])
    (hall : ∀ c ∈ text.toList, c.isDigit = true) :
    ofNumeral? text = some (.whole (decimalReading text.toList)) := by
  have hreal : text.toList.any (fun c => c == '.' || c == 'e' || c == 'E') = false := by
    rw [List.any_eq_false]
    intro c hc
    have hdigit := hall c hc
    rw [beq_eq_false_iff_ne.mpr (ne_of_isDigit hdigit (by decide)),
      beq_eq_false_iff_ne.mpr (ne_of_isDigit hdigit (by decide)),
      beq_eq_false_iff_ne.mpr (ne_of_isDigit hdigit (by decide))]
    exact Bool.false_ne_true
  have hnat : natOfText? text.toList = some (decimalReading text.toList) := by
    obtain ⟨d, rest, hchars⟩ := List.exists_cons_of_ne_nil hne
    rw [hchars] at hall ⊢
    obtain ⟨hd, hrest⟩ := List.forall_mem_cons.mp hall
    have hkeep : rest.filter (· != '_') = rest := by
      refine List.filter_eq_self.mpr fun c hc => ?_
      exact bne_iff_ne.mpr (ne_of_isDigit (hrest c hc) (by decide))
    have hdigits : rest.all (fun c => c.isDigit || c == '_') = true := by
      refine List.all_eq_true.mpr fun c hc => ?_
      rw [hrest c hc]
      rfl
    rw [natOfText?, hd, hdigits, hkeep, natOfDigits_eq_decimalReading]
    rfl
  have hint : intOfText? text.toList = some (decimalReading text.toList : Int) := by
    unfold intOfText?
    split
    -- A sign in front would have to be a digit.
    · next rest hchars =>
      rw [hchars] at hall
      exact absurd (hall '-' List.mem_cons_self) (by decide)
    · next rest hchars =>
      rw [hchars] at hall
      exact absurd (hall '+' List.mem_cons_self) (by decide)
    · rw [hnat]
      rfl
  rw [ofNumeral?, hreal, hint]
  rfl

/-! ## Operators over the integers -/

/-- A sign on an integer. -/
def UnaryOp.onIntegers : UnaryOp → Int → Int
  | .negate, n => -n
  | .keep, n => n

/-- An operator on integers, where it is defined. The remainder has the sign of the dividend. -/
def BinaryOp.onIntegers? (op : BinaryOp) (x y : Int) : Option Int :=
  match op with
  | .add => some (x + y)
  | .sub => some (x - y)
  | .mul => some (x * y)
  | .div => none
  | .rem => if y = 0 then none else some (x.tmod y)
  | .pow => if y < 0 then none else some (x ^ y.toNat)

theorem BinaryOp.exponent_nonneg {x y n : Int} (h : onIntegers? .pow x y = some n) : 0 ≤ y := by
  by_cases hy : y < 0
  · rw [onIntegers?, if_pos hy] at h
    exact absurd h.symm (Option.some_ne_none n)
  · exact not_lt.mp hy

/-- The powers that are not too long: those of 0, 1 and -1, and those where the exponent fits 32
bits and the length of the base times the exponent stays within the limit. -/
def PowerFits (x y : Int) : Prop :=
  0 ≤ y ∧ ((x = 0 ∨ x = 1 ∨ x = -1) ∨ y < 2 ^ 32 ∧ x.natAbs.size * y ≤ 4194304)

theorem bitLength_eq_size (n : Int) : bitLength n = n.natAbs.size := by
  by_cases hzero : n = 0
  · rw [hzero, bitLength, if_pos rfl, Int.natAbs_zero, Nat.size_zero]
  · have hpos : n.natAbs ≠ 0 := Int.natAbs_ne_zero.mpr hzero
    rw [bitLength, if_neg hzero]
    -- Both are the least number of bits that `n` fits into.
    apply Nat.le_antisymm
    · rw [Nat.succ_le_iff, Nat.log2_lt hpos]
      exact Nat.lt_size_self _
    · rw [Nat.size_le, ← Nat.log2_lt hpos]
      exact Nat.lt_succ_self _

/-! ## Powers -/

/-- The powers of -1 are told apart by parity. -/
theorem neg_one_pow_eq (k : Nat) : (-1 : Int) ^ k = if k % 2 = 0 then 1 else -1 := by
  by_cases heven : k % 2 = 0
  · rw [if_pos heven]
    exact Even.neg_one_pow (Nat.even_iff.mpr heven)
  · rw [if_neg heven]
    exact Odd.neg_one_pow (Nat.odd_iff.mpr (Nat.mod_two_ne_zero.mp heven))

/-- A power is exact, or it is a real. -/
theorem wholePower_eq (x : Int) (k : Nat) :
    wholePower x k = if powerIsExact x k then .whole (x ^ k)
      else .real (Float.pow (Float.ofInt x) (Float.ofNat k)) := by
  unfold wholePower
  -- The three bases that never grow are exact whatever the exponent.
  by_cases h0 : x = 0
  · have hexact : powerIsExact x k = true := by
      rw [h0]
      rfl
    rw [if_pos h0, if_pos hexact, h0, zero_pow_eq]
  by_cases h1 : x = 1
  · have hexact : powerIsExact x k = true := by
      rw [h1]
      rfl
    rw [if_neg h0, if_pos h1, if_pos hexact, h1, one_pow]
  by_cases hneg : x = -1
  · have hexact : powerIsExact x k = true := by
      rw [hneg]
      rfl
    rw [if_neg h0, if_neg h1, if_pos hneg, if_pos hexact, hneg, neg_one_pow_eq]
  rw [if_neg h0, if_neg h1, if_neg hneg]
  rfl

/-- A power that is whole is exact. -/
theorem wholePower_eq_whole {x n : Int} {k : Nat} (h : wholePower x k = .whole n) : x ^ k = n := by
  rw [wholePower_eq] at h
  by_cases hexact : powerIsExact x k = true
  · rw [if_pos hexact] at h
    exact Value.whole.inj h
  · rw [if_neg hexact] at h
    exact Value.noConfusion h

/-- The powers that are computed exactly are those that are not too long. -/
theorem powerIsExact_iff_fits {x y : Int} (hy : 0 ≤ y) :
    powerIsExact x y.toNat = true ↔ PowerFits x y := by
  have hbase : x.natAbs ≤ 1 ↔ x = 0 ∨ x = 1 ∨ x = -1 := by omega
  have hbits : y.toNat < 4294967296 ↔ y < 2 ^ 32 := by omega
  have hlength : bitLength x * y.toNat ≤ maxPowerBits ↔ x.natAbs.size * y ≤ 4194304 := by
    rw [bitLength_eq_size, maxPowerBits]
    zify
    rw [Int.toNat_of_nonneg hy]
  simp only [powerIsExact, PowerFits, Bool.or_eq_true, Bool.and_eq_true, decide_eq_true_eq, hbase,
    hbits, hlength, hy, true_and]

/-- A power is no longer than its base times the exponent. -/
theorem size_pow_le (m : Nat) {k : Nat} (hk : k ≠ 0) : (m ^ k).size ≤ m.size * k := by
  rw [Nat.size_le, pow_mul]
  exact Nat.pow_lt_pow_left (Nat.lt_size_self m) hk

/-- A power that is not too long has at most as many bits as the limit says. -/
theorem PowerFits.size_le {x y : Int} (h : PowerFits x y) (hx : 2 ≤ x.natAbs) :
    (x ^ y.toNat).natAbs.size ≤ 4194304 := by
  obtain ⟨hy, hsmall | ⟨-, hlength⟩⟩ := h
  · omega
  rw [Int.natAbs_pow]
  by_cases hzero : y.toNat = 0
  · rw [hzero, pow_zero, Nat.size_one]
    omega
  · have hpower := size_pow_le x.natAbs hzero
    rw [← Int.toNat_of_nonneg hy] at hlength
    norm_cast at hlength
    omega

/-! ## Operators on values -/

namespace BinaryOp

variable {op : BinaryOp} {x y n : Int}

/-- A real never becomes whole. -/
theorem map_real_ne_whole (outcome : Except EvalError Float) (n : Int) :
    outcome.map Value.real ≠ .ok (.whole n) := by
  intro h
  obtain ⟨x, -, hx⟩ := map_eq_ok h
  exact Value.noConfusion hx

/-- What is whole is the result over the integers. -/
theorem onIntegers?_of_onWholes (h : op.onWholes x y = .ok (.whole n)) :
    op.onIntegers? x y = some n := by
  cases op with
  | add => exact congrArg some (Value.whole.inj (Except.ok.inj h))
  | sub => exact congrArg some (Value.whole.inj (Except.ok.inj h))
  | mul => exact congrArg some (Value.whole.inj (Except.ok.inj h))
  | div => exact absurd h (map_real_ne_whole _ n)
  | rem =>
    by_cases hy : y = 0
    · rw [onWholes, if_pos hy] at h
      exact absurd h (by rintro ⟨⟩)
    · rw [onWholes, if_neg hy] at h
      rw [onIntegers?, if_neg hy]
      exact congrArg some (Value.whole.inj (Except.ok.inj h))
  | pow =>
    by_cases hy : y < 0
    · rw [onWholes, if_pos hy] at h
      exact absurd h (map_real_ne_whole _ n)
    · rw [onWholes, if_neg hy] at h
      rw [onIntegers?, if_neg hy]
      exact congrArg some (wholePower_eq_whole (Except.ok.inj h))

/-- Where there is a result over the integers, it is whole, unless it is a power too long. -/
theorem onWholes_of_onIntegers? (h : op.onIntegers? x y = some n)
    (hpow : op = .pow → PowerFits x y) : op.onWholes x y = .ok (.whole n) := by
  cases op with
  | add => rw [onWholes, Option.some.inj h]
  | sub => rw [onWholes, Option.some.inj h]
  | mul => rw [onWholes, Option.some.inj h]
  | div => exact absurd h.symm (Option.some_ne_none n)
  | rem =>
    by_cases hy : y = 0
    · rw [onIntegers?, if_pos hy] at h
      exact absurd h.symm (Option.some_ne_none n)
    · rw [onIntegers?, if_neg hy] at h
      rw [onWholes, if_neg hy, Option.some.inj h]
  | pow =>
    have hfits := hpow rfl
    have hy : ¬y < 0 := not_lt.mpr hfits.1
    rw [onIntegers?, if_neg hy] at h
    rw [onWholes, if_neg hy, wholePower_eq, if_pos ((powerIsExact_iff_fits hfits.1).mpr hfits),
      Option.some.inj h]

/-- One real operand makes the result real. -/
theorem apply_eq_ok_whole {a b : Value} (h : op.apply a b = .ok (.whole n)) :
    ∃ x y, a = .whole x ∧ b = .whole y ∧ op.onIntegers? x y = some n := by
  unfold apply at h
  split at h
  · exact ⟨_, _, rfl, rfl, onIntegers?_of_onWholes h⟩
  · exact absurd h (map_real_ne_whole _ n)

/-- **Powers of whole numbers.** A power of whole numbers is never refused. It is whole exactly if it
is not too long. It is then the power of the integers, which is 1 for an exponent of zero, and unless
the base is 0, 1 or -1 it has at most 4194304 bits. -/
theorem apply_pow_whole (x y : Int) :
    ∃ v, apply .pow (.whole x) (.whole y) = .ok v ∧ (v.isWhole = true ↔ PowerFits x y) ∧
      ∀ n, v = .whole n → n = x ^ y.toNat ∧ (2 ≤ x.natAbs → n.natAbs.size ≤ 4194304) := by
  by_cases hy : y < 0
  · -- A negative exponent leads over to the reals, where a power is never refused either.
    refine ⟨.real (Float.pow (Float.ofInt x) (Float.ofInt y)), ?_, ?_, ?_⟩
    · rw [apply, onWholes, if_pos hy]
      rfl
    · refine iff_of_false (by simp [Value.isWhole]) fun hfits => ?_
      have := hfits.1
      omega
    · simp
  · have hnonneg : 0 ≤ y := by omega
    refine ⟨wholePower x y.toNat, ?_, ?_, ?_⟩
    · rw [apply, onWholes, if_neg hy]
    · rw [wholePower_eq, ← powerIsExact_iff_fits hnonneg]
      by_cases hexact : powerIsExact x y.toNat = true
      · simp [hexact, Value.isWhole]
      · simp [hexact, Value.isWhole]
    · intro n hn
      have hfits : PowerFits x y := by
        by_contra hlong
        rw [← powerIsExact_iff_fits hnonneg] at hlong
        rw [wholePower_eq, if_neg hlong] at hn
        simp at hn
      have hpower : n = x ^ y.toNat := (wholePower_eq_whole hn).symm
      exact ⟨hpower, fun hx => hpower ▸ hfits.size_le hx⟩

/-- The longest power of two that is whole. -/
example : PowerFits 2 2097152 ∧ ¬PowerFits 2 2097153 := by
  have hsize : (2 : Nat).size = 2 := by decide
  constructor
  · norm_num [PowerFits, hsize]
  · norm_num [PowerFits, hsize]

end BinaryOp

theorem UnaryOp.apply_eq_whole {op : UnaryOp} {a : Value} {n : Int}
    (h : op.apply a = .whole n) : ∃ x, a = .whole x ∧ op.onIntegers x = n := by
  cases op with
  | negate =>
    cases a with
    | whole x => exact ⟨x, rfl, Value.whole.inj h⟩
    | real x => exact absurd h (by rintro ⟨⟩)
  | keep => exact ⟨n, h, rfl⟩

theorem UnaryOp.apply_whole (op : UnaryOp) (x : Int) :
    op.apply (.whole x) = .whole (op.onIntegers x) := by
  cases op with
  | negate => rfl
  | keep => rfl

end Reckoner
