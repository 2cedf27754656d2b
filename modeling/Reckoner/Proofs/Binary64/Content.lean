/-
The content of a float, and how operations on floats see it.

The logical model of a float is its bit pattern. An operation unpacks the patterns of its operands,
works on signs, significands and exponents, and packs what comes out. Unpacking finds just what the
content says, and packing makes a float of that content, if there is one: its significand then fills
all places, or its exponent is the smallest there is.
-/
import Mathlib
import Reckoner.Binary64

set_option autoImplicit false

namespace Reckoner.Binary64

open Float.Model Float.Model.UnpackedFloat

/-- The finite contents that a float can have: subnormal numbers share the smallest exponent, all
others have the leading bit. -/
def Canonical (m : Nat) (q : Int) : Prop :=
  m < 2 ^ 52 ∧ q = -1074 ∨ 2 ^ 52 ≤ m ∧ m < 2 ^ 53 ∧ -1074 ≤ q ∧ q ≤ 971

theorem Canonical.lt {m : Nat} {q : Int} (h : Canonical m q) : m < 2 ^ 53 := by
  rcases h with ⟨hlt, -⟩ | ⟨-, hlt, -⟩
  · exact hlt.trans (by decide)
  · exact hlt

theorem Canonical.le {m : Nat} {q : Int} (h : Canonical m q) : -1074 ≤ q := by
  rcases h with ⟨-, hq⟩ | ⟨-, -, hq, -⟩
  · exact hq.ge
  · exact hq

theorem Canonical.le_top {m : Nat} {q : Int} (h : Canonical m q) : q ≤ 971 := by
  rcases h with ⟨-, hq⟩ | ⟨-, -, -, hq⟩
  · exact hq.le.trans (by decide)
  · exact hq

/-- Whether a sign of the model is the minus sign. -/
def isNegative : Sign → Bool
  | .negative => true
  | .positive => false

/-! ## Bit patterns -/

theorem toNat_packComponents (s : Sign) (e : BitVec 11) (f : BitVec 52) :
    (packComponents Format.binary64 s e f).toNat =
      (if isNegative s then 2 ^ 63 else 0) + e.toNat * 2 ^ 52 + f.toNat := by
  have hsign : s.toBitVec.toNat = if isNegative s then 1 else 0 := by
    cases s <;> rfl
  -- Appending is adding a multiple, since the lower part fits below it.
  have hhigh : (s.toBitVec ++ e).toNat = s.toBitVec.toNat * 2 ^ 11 + e.toNat := by
    rw [BitVec.toNat_append, ← Nat.shiftLeft_add_eq_or_of_lt e.isLt, Nat.shiftLeft_eq]
  have hall : (packComponents Format.binary64 s e f).toNat =
      (s.toBitVec ++ e).toNat * 2 ^ 52 + f.toNat := by
    rw [packComponents, BitVec.toNat_append, ← Nat.shiftLeft_add_eq_or_of_lt f.isLt,
      Nat.shiftLeft_eq]
  rw [hall, hhigh, hsign]
  split <;> omega

/-- The content by the three parts of the pattern. -/
theorem ofFloat_of_parts {x : Float} {s : Sign} {e : BitVec 11} {f : BitVec 52}
    (h : x.toBits.toBitVec = packComponents Format.binary64 s e f) :
    ofFloat x =
      if e.toNat = 2047 then if f.toNat = 0 then .infinite (isNegative s) else .nan
      else if e.toNat = 0 then .finite (isNegative s) f.toNat (-1074)
      else .finite (isNegative s) (2 ^ 52 + f.toNat) ((e.toNat : Int) - 1075) := by
  have hbits : x.toBits.toNat =
      (if isNegative s then 2 ^ 63 else 0) + e.toNat * 2 ^ 52 + f.toNat := by
    rw [← toNat_packComponents, ← h]
    rfl
  have he := e.isLt
  have hf := f.isLt
  -- Dividing and taking remainders finds the three summands again.
  have hnegative : decide (1 <<< 63 ≤ x.toBits.toNat) = isNegative s := by
    rw [hbits, show (1 <<< 63 : Nat) = 2 ^ 63 from rfl]
    cases s <;> simp [isNegative] <;> omega
  have hfield : (x.toBits.toNat >>> 52) % 2048 = e.toNat := by
    rw [hbits, Nat.shiftRight_eq_div_pow]
    split <;> omega
  have hfraction : x.toBits.toNat % (1 <<< 52) = f.toNat := by
    rw [hbits, show (1 <<< 52 : Nat) = 2 ^ 52 from rfl]
    split <;> omega
  simp only [ofFloat, hnegative, hfield, hfraction]
  rfl

/-- A pattern consists of its parts. -/
theorem toBitVec_toBits (x : Float) :
    x.toBits.toBitVec = packComponents Format.binary64
      (Sign.ofBitVec (@unpackSign Format.binary64 x.toBits.toBitVec))
      (@unpackExponent Format.binary64 x.toBits.toBitVec)
      (@unpackMantissa Format.binary64 x.toBits.toBitVec) :=
  (@packComponents_unpackSign_unpackExponent_unpackMantissa Format.binary64
    x.toBits.toBitVec).symm

/-- The finite content of a float is canonical. -/
theorem canonical_of_ofFloat {x : Float} {negative : Bool} {m : Nat} {q : Int}
    (h : ofFloat x = .finite negative m q) : Canonical m q := by
  have he : (@unpackExponent Format.binary64 x.toBits.toBitVec).toNat < 2 ^ 11 :=
    BitVec.isLt _
  have hf : (@unpackMantissa Format.binary64 x.toBits.toBitVec).toNat < 2 ^ 52 :=
    BitVec.isLt _
  rw [ofFloat_of_parts (toBitVec_toBits x)] at h
  split_ifs at h with htop hfraction hzero
  · obtain ⟨-, rfl, rfl⟩ := Binary64.finite.inj h
    exact Or.inl ⟨hf, rfl⟩
  · obtain ⟨-, rfl, rfl⟩ := Binary64.finite.inj h
    exact Or.inr (by omega)

/-! ## Unpacking and packing -/

/-- The content of an unpacked float. -/
def ofUnpacked : UnpackedFloat → Binary64
  | .notANumber => .nan
  | .infinity s => .infinite (isNegative s)
  | .zero s => .finite (isNegative s) 0 (-1074)
  | .finite s m q _ => .finite (isNegative s) m q

theorem ofUnpacked_unpack (x : Float) : ofUnpacked x.toModel.unpack = ofFloat x := by
  rw [ofFloat_of_parts (toBitVec_toBits x)]
  change ofUnpacked (UnpackedFloat.unpack Format.binary64 x.toBits.toBitVec) = _
  unfold UnpackedFloat.unpack
  dsimp only
  -- Comparing a field with all ones or with zero is comparing its number.
  have htop : @unpackExponent Format.binary64 x.toBits.toBitVec = -1#_ ↔
      (@unpackExponent Format.binary64 x.toBits.toBitVec).toNat = 2047 :=
    BitVec.toNat_inj.symm
  have hbottom : @unpackExponent Format.binary64 x.toBits.toBitVec = 0#_ ↔
      (@unpackExponent Format.binary64 x.toBits.toBitVec).toNat = 0 :=
    BitVec.toNat_inj.symm
  have hfraction : @unpackMantissa Format.binary64 x.toBits.toBitVec = 0#_ ↔
      (@unpackMantissa Format.binary64 x.toBits.toBitVec).toNat = 0 :=
    BitVec.toNat_inj.symm
  have hleading : (1#1 ++ @unpackMantissa Format.binary64 x.toBits.toBitVec).toNat =
      2 ^ 52 + (@unpackMantissa Format.binary64 x.toBits.toBitVec).toNat := by
    rw [BitVec.toNat_append, ← Nat.shiftLeft_add_eq_or_of_lt (BitVec.isLt _), Nat.shiftLeft_eq]
    rfl
  have hbias : ((Format.binary64.exponentBias : Nat) : Int) +
      (Format.binary64.mantissaBitsWithoutImplicit : Nat) = 1075 := rfl
  by_cases hall : (@unpackExponent Format.binary64 x.toBits.toBitVec).toNat = 2047
  · rw [if_pos (htop.mpr hall), if_pos hall]
    by_cases hnone : (@unpackMantissa Format.binary64 x.toBits.toBitVec).toNat = 0
    · rw [if_pos (hfraction.mpr hnone), if_pos hnone]
      rfl
    · rw [if_neg fun h => hnone (hfraction.mp h), if_neg hnone]
      rfl
  · rw [if_neg fun h => hall (htop.mp h), if_neg hall]
    by_cases hzero : (@unpackExponent Format.binary64 x.toBits.toBitVec).toNat = 0
    · rw [if_pos (hbottom.mpr hzero), if_pos hzero]
      by_cases hnone : (@unpackMantissa Format.binary64 x.toBits.toBitVec).toNat = 0
      · rw [dif_pos (hfraction.mpr hnone), hnone]
        rfl
      · rw [dif_neg fun h => hnone (hfraction.mp h), ofUnpacked, hzero, hbias]
        rfl
    · rw [if_neg fun h => hzero (hbottom.mp h), if_neg hzero, ofUnpacked, hleading, hbias]

/-- What an operation packs has the content it was packed from, if that is canonical. -/
theorem ofFloat_pack_finite {s : Sign} {m : Nat} {q : Int} (hm : 0 < m) (h : Canonical m q) :
    ofFloat (.ofModel (Float.Model.pack (.finite s m q hm))) = .finite (isNegative s) m q := by
  have hbias : q + ((Format.binary64.exponentBias : Nat) : Int) +
      (Format.binary64.mantissaBitsWithoutImplicit : Nat) = q + 1075 := by
    change q + 1023 + 52 = q + 1075
    omega
  have hbits : (Float.ofModel (Float.Model.pack (.finite s m q hm))).toBits.toBitVec =
      UnpackedFloat.pack Format.binary64 (.finite s m q hm) := rfl
  have hplaces : Format.binary64.mantissaBits = 53 := rfl
  unfold UnpackedFloat.pack at hbits
  dsimp only at hbits
  rw [hbias, hplaces] at hbits
  rcases h with ⟨hlt, rfl⟩ | ⟨hge, hlt, hlow, hhigh⟩
  · -- Without the leading bit the exponent field is zero.
    have hlog : m.log2 < 52 := (Nat.log2_lt (Nat.ne_of_gt hm)).mpr hlt
    rw [if_neg (by decide), if_neg (by omega)] at hbits
    have hfraction : (BitVec.ofNat 52 m).toNat = m := by
      rw [BitVec.toNat_ofNat, Nat.mod_eq_of_lt hlt]
    rw [ofFloat_of_parts hbits, hfraction]
    rfl
  · -- With it, the field tells the exponent and the bit itself is left out.
    have hlog : m.log2 = 52 := (Nat.log2_eq_iff (Nat.ne_of_gt hm)).mpr ⟨hge, hlt⟩
    have hfield : ¬2 ^ 11 ≤ (q + 1075).toNat + 1 := by omega
    rw [if_neg hfield, if_pos (by rw [hlog])] at hbits
    rw [ofFloat_of_parts hbits, BitVec.toNat_ofNat, BitVec.toNat_ofNat,
      Nat.mod_eq_of_lt (show (q + 1075).toNat < 2 ^ 11 by omega), if_neg (by omega),
      if_neg (by omega)]
    congr 1
    · omega
    · omega

/-- What is too large for any exponent becomes infinite. -/
theorem ofFloat_pack_overflow {s : Sign} {m : Nat} {q : Int} (hm : 0 < m) (h : 971 < q) :
    ofFloat (.ofModel (Float.Model.pack (.finite s m q hm))) = .infinite (isNegative s) := by
  have hbits : (Float.ofModel (Float.Model.pack (.finite s m q hm))).toBits.toBitVec =
      UnpackedFloat.pack Format.binary64 (.finite s m q hm) := rfl
  have hfield : 2 ^ 11 ≤ (q + ((Format.binary64.exponentBias : Nat) : Int) +
      (Format.binary64.mantissaBitsWithoutImplicit : Nat)).toNat + 1 := by
    change 2 ^ 11 ≤ (q + 1023 + 52).toNat + 1
    omega
  unfold UnpackedFloat.pack at hbits
  dsimp only at hbits
  rw [if_pos hfield] at hbits
  rw [ofFloat_of_parts hbits]
  rfl

theorem ofFloat_pack_zero (s : Sign) :
    ofFloat (.ofModel (Float.Model.pack (.zero s))) = .finite (isNegative s) 0 (-1074) := by
  cases s <;> rfl

theorem ofFloat_pack_infinity (s : Sign) :
    ofFloat (.ofModel (Float.Model.pack (.infinity s))) = .infinite (isNegative s) := by
  cases s <;> rfl

theorem ofFloat_pack_notANumber : ofFloat (.ofModel (Float.Model.pack .notANumber)) = .nan := by
  rfl

/-- The sign of the model. -/
def signOf (negative : Bool) : Sign :=
  if negative then .negative else .positive

/-- What a float of this content is unpacked to. -/
def toUnpacked : Binary64 → UnpackedFloat
  | .nan => .notANumber
  | .infinite negative => .infinity (signOf negative)
  | .finite negative m q =>
    if h : m = 0 then .zero (signOf negative)
    else .finite (signOf negative) m q (Nat.pos_of_ne_zero h)

theorem signOf_isNegative (s : Sign) : signOf (isNegative s) = s := by
  cases s <;> rfl

/-- A float is unpacked as its content says. -/
theorem unpack_eq (x : Float) : x.toModel.unpack = (ofFloat x).toUnpacked := by
  rw [← ofUnpacked_unpack]
  cases x.toModel.unpack with
  | notANumber => rfl
  | infinity s => rw [ofUnpacked, toUnpacked, signOf_isNegative]
  | zero s => rw [ofUnpacked, toUnpacked, dif_pos rfl, signOf_isNegative]
  | finite s m q hm =>
    rw [ofUnpacked, toUnpacked, dif_neg (Nat.ne_of_gt hm)]
    cases s <;> rfl

theorem toUnpacked_finite (negative : Bool) {m : Nat} (hm : 0 < m) (q : Int) :
    (finite negative m q).toUnpacked = .finite (signOf negative) m q hm :=
  dif_neg (Nat.ne_of_gt hm)

/-! ## Signs -/

/-- The content with the opposite sign. -/
def opposite : Binary64 → Binary64
  | .nan => .nan
  | .infinite negative => .infinite !negative
  | .finite negative m q => .finite (!negative) m q

/-- The content without its sign. -/
def magnitude : Binary64 → Binary64
  | .nan => .nan
  | .infinite _ => .infinite false
  | .finite _ m q => .finite false m q

theorem isNegative_neg (s : Sign) : isNegative (-s) = !isNegative s := by
  cases s <;> rfl

theorem canonical_of_unpack {x : Float} {s : Sign} {m : Nat} {q : Int} {hm : 0 < m}
    (h : x.toModel.unpack = .finite s m q hm) : Canonical m q := by
  have hcontent : ofFloat x = .finite (isNegative s) m q := by
    rw [← ofUnpacked_unpack, h]
    rfl
  exact canonical_of_ofFloat hcontent

theorem ofFloat_neg (x : Float) : ofFloat (-x) = (ofFloat x).opposite := by
  have hneg : -x = .ofModel (Float.Model.pack x.toModel.unpack.neg) := rfl
  rw [hneg, ← ofUnpacked_unpack x]
  cases hunpack : x.toModel.unpack with
  | notANumber => exact ofFloat_pack_notANumber
  | infinity s =>
    rw [UnpackedFloat.neg, ofFloat_pack_infinity, isNegative_neg]
    rfl
  | zero s =>
    rw [UnpackedFloat.neg, ofFloat_pack_zero, isNegative_neg]
    rfl
  | finite s m q hm =>
    rw [UnpackedFloat.neg, ofFloat_pack_finite hm (canonical_of_unpack hunpack), isNegative_neg]
    rfl

theorem ofFloat_abs (x : Float) : ofFloat x.abs = (ofFloat x).magnitude := by
  have habs : x.abs = .ofModel (Float.Model.pack x.toModel.unpack.abs) := rfl
  rw [habs, ← ofUnpacked_unpack x]
  cases hunpack : x.toModel.unpack with
  | notANumber => exact ofFloat_pack_notANumber
  | infinity s => exact ofFloat_pack_infinity .positive
  | zero s => exact ofFloat_pack_zero .positive
  | finite s m q hm => exact ofFloat_pack_finite hm (canonical_of_unpack hunpack)

/-- Nothing is lost: floats of the same content are the same. -/
theorem eq_of_ofFloat {x y : Float} (h : ofFloat x = ofFloat y) : x = y := by
  have hunpack : x.toModel.unpack = y.toModel.unpack := by rw [unpack_eq, unpack_eq, h]
  have hbits : x.toBits.toBitVec = y.toBits.toBitVec :=
    (unpack_inj_of_valid x.toModel.valid y.toModel.valid).mp hunpack
  exact Float.toBits_inj.mp (UInt64.toBitVec_inj.mp hbits)

/-! ## Order -/

theorem lt_iff {x y : Float} :
    x < y ↔ (ofFloat x).toUnpacked.lt (ofFloat y).toUnpacked = true := by
  rw [← unpack_eq, ← unpack_eq]
  exact decide_eq_true_iff

/-- Between two floats with a significand there are only floats with a significand, and their
exponents are no greater than that of the upper one. -/
theorem finite_of_lt_abs {x low high : Float} {n n' : Nat} {r r' : Int} (hn : 0 < n) (hn' : 0 < n')
    (hlow : ofFloat low = .finite false n r) (hhigh : ofFloat high = .finite false n' r')
    (hltlow : low < x.abs) (hlthigh : x.abs < high) :
    ∃ negative m q, ofFloat x = .finite negative m q ∧ 0 < m ∧ q ≤ r' := by
  rw [lt_iff, ofFloat_abs, hlow, toUnpacked_finite false hn] at hltlow
  rw [lt_iff, ofFloat_abs, hhigh, toUnpacked_finite false hn'] at hlthigh
  cases hx : ofFloat x with
  | nan =>
    rw [hx] at hltlow
    have hcompare : none = some Ordering.lt := eq_of_beq hltlow
    exact absurd hcompare (by rintro ⟨⟩)
  | infinite negative =>
    rw [hx] at hlthigh
    have hcompare : some Ordering.gt = some Ordering.lt := eq_of_beq hlthigh
    exact absurd hcompare (by rintro ⟨⟩)
  | finite negative m q =>
    rw [hx] at hltlow hlthigh
    rcases Nat.eq_zero_or_pos m with rfl | hm
    · have hcompare : some Ordering.gt = some Ordering.lt := eq_of_beq hltlow
      exact absurd hcompare (by rintro ⟨⟩)
    · refine ⟨negative, m, q, rfl, hm, ?_⟩
      rw [magnitude, toUnpacked_finite false hm] at hlthigh
      -- A greater exponent would decide the comparison the other way.
      by_contra hle
      have hgt : compare q r' = .gt := compare_gt_iff_gt.mpr (not_le.mp hle)
      have hcompare : some ((compare q r').then (compare m n')) = some Ordering.lt :=
        eq_of_beq hlthigh
      rw [hgt] at hcompare
      exact absurd hcompare (by rintro ⟨⟩)

end Reckoner.Binary64
