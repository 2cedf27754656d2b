/-
Reading the text of a result.

The text of a finite value is a sign and a numeral. The numeral is read as a value again: as a whole
number if all of it is digits, even where it is the text of a real, and otherwise as a real. In each
case the value has the same text as a result. A whole number is written as it was read; and a real
is read as the very float that it is the text of, which is a rounded one.
-/
import Reckoner.Proofs.Session.Results
import Reckoner.Proofs.Value.RoundResult

set_option autoImplicit false

namespace Reckoner

/-! ## Numerals -/

namespace Token

/-- The form of a numeral with a point or a power of ten. -/
structure IsDecimal (cs : List Char) : Prop where
  isNumeral : IsNumeral (String.ofList cs)
  head : ∃ c rest, cs = c :: rest ∧ c.isDigit = true
  mark : '.' ∈ cs ∨ 'e' ∈ cs

end Token

namespace Figures.Proper

open Token

variable {f : Figures}

/-- The positional notation has the form of a numeral with a point, or it is the figures and zeros.
-/
theorem isDecimal_positional (hf : f.Proper) :
    (∃ n, f.positional = f.digits ++ List.replicate n '0') ∨ IsDecimal f.positional := by
  rcases hf.positional_cases with ⟨n, htext, -⟩ | ⟨whole, places, htext, hne, hwhole, hplaces, -⟩
  · exact Or.inl ⟨n, htext⟩
  · rw [htext]
    refine Or.inr ⟨?_, ?_, Or.inl (by simp)⟩
    · rw [← List.append_nil (whole ++ '.' :: places)]
      refine isNumeral_of_parts (by simp) (fun c hc => ?_) (Or.inl rfl)
      rcases List.mem_append.mp hc with hc | hc
      · exact isMantissaChar_of_isDigit (hwhole c hc)
      rcases List.mem_cons.mp hc with rfl | hc
      · rfl
      · exact isMantissaChar_of_isDigit (hplaces c hc)
    · obtain ⟨c, rest, rfl⟩ := List.exists_cons_of_ne_nil hne
      exact ⟨c, rest ++ '.' :: places, rfl, hwhole c List.mem_cons_self⟩

theorem isDecimal_scientific (hf : f.Proper) : IsDecimal f.scientific := by
  have hpower : IsPower
      ('e' :: (if f.power < 0 then '-' else '+') :: Nat.toDigits 10 f.power.natAbs) := by
    refine ⟨'e', [if f.power < 0 then '-' else '+'], Nat.toDigits 10 f.power.natAbs, rfl,
      Or.inl rfl, ?_, Nat.toDigits_ne_nil, fun c hc => isDigit_of_mem_toDigits hc⟩
    split
    · exact Or.inr (Or.inr rfl)
    · exact Or.inr (Or.inl rfl)
  obtain ⟨d, hd, ⟨-, htext⟩ | ⟨behind, hdigits, htext⟩⟩ := hf.scientific_cases
  · rw [htext]
    refine ⟨isNumeral_of_parts (by simp) ?_ (Or.inr hpower), ⟨d, _, rfl, hd⟩, Or.inr (by simp)⟩
    exact List.forall_mem_singleton.mpr (isMantissaChar_of_isDigit hd)
  · rw [htext]
    refine ⟨?_, ⟨d, _, rfl, hd⟩, Or.inr (by simp)⟩
    have hmantissa : ∀ c ∈ d :: '.' :: behind, isMantissaChar c = true := by
      refine List.forall_mem_cons.mpr ⟨isMantissaChar_of_isDigit hd, ?_⟩
      refine List.forall_mem_cons.mpr ⟨rfl, fun c hc => isMantissaChar_of_isDigit ?_⟩
      exact hf.isDigit c (by rw [hdigits]; exact List.mem_cons_of_mem d hc)
    have hparts := isNumeral_of_parts (List.cons_ne_nil _ _) hmantissa (Or.inr hpower)
    exact hparts

end Figures.Proper

namespace Value

theorem ofNumeral?_of_isDecimal {cs : List Char} {d : Decimal} (hform : Token.IsDecimal cs)
    (h : Decimal.ofText? cs = some d) : ofNumeral? (String.ofList cs) = some (.real d.toFloat) := by
  obtain ⟨c, rest, rfl, hc⟩ := hform.head
  have hany : (c :: rest).any (fun c => c == '.' || c == 'e' || c == 'E') = true := by
    rw [List.any_eq_true]
    rcases hform.mark with hmem | hmem
    · exact ⟨'.', hmem, by decide⟩
    · exact ⟨'e', hmem, by decide⟩
  rw [ofNumeral?, String.toList_ofList, hany, if_pos rfl,
    realOfText?_of_isMantissaChar (Token.isMantissaChar_of_isDigit hc), h]
  rfl

/-! ## Signs -/

/-- A value with the sign that stands before it. -/
def signed (negative : Bool) (v : Value) : Value :=
  if negative then v.neg else v

/-- The text of a whole number with a sign. There is no zero with a minus sign. -/
theorem resultText_signed_whole {negative : Bool} {n : Nat} (h : 0 < n ∨ negative = false) :
    ((whole n).signed negative).resultText.toList = signText negative ++ Nat.toDigits 10 n := by
  cases negative with
  | false =>
    rw [signed, if_neg Bool.false_ne_true, resultText, toList_toString_int,
      decide_eq_false (by omega), Int.natAbs_natCast]
  | true =>
    have hpos : 0 < n := h.resolve_right (by decide)
    rw [signed, if_pos rfl, neg, resultText, toList_toString_int, decide_eq_true (by omega),
      Int.natAbs_neg, Int.natAbs_natCast]

end Value

/-! ## Reading a result -/

/-- That the characters are a numeral, and with a sign before them a value whose text as a result is
this one. -/
structure ReadsBack (negative : Bool) (body : List Char) (v : Value) : Prop where
  isNumeral : Token.IsNumeral (String.ofList body)
  value : Value.ofNumeral? (String.ofList body) = some v
  text : (v.signed negative).resultText.toList = signText negative ++ body
  isNaN : (v.signed negative).isNaN = false

/-- Digits that begin with no zero. -/
theorem readsBack_digits (negative : Bool) {ds : List Char} (hne : ds ≠ [])
    (hall : ∀ c ∈ ds, c.isDigit = true) (hhead : ∀ d, ds.head? = some d → d ≠ '0') :
    ReadsBack negative ds (.whole (natOfDigits ds)) := by
  obtain ⟨hpos, hdigits⟩ := toDigits_natOfDigits hall hhead hne
  refine ⟨Token.isNumeral_of_digits hne hall, Value.ofNumeral?_ofList_digits hne hall, ?_, ?_⟩
  · rw [Value.resultText_signed_whole (Or.inl hpos), hdigits]
  · cases negative <;> rfl

open Binary64 RoundingInterval

section Reals

variable {y : Float} {negative : Bool} {m : Nat} {q : Int}

theorem isNaN_of_ofFloat (hy : ofFloat y = .finite negative m q) : y.isNaN = false := by
  change y.toModel.unpack.isNaN = false
  rw [unpack_eq, hy, toUnpacked]
  split <;> rfl

/-- A decimal of the value of the shortest one is read as the float. -/
theorem readsBack_decimal (hy : ofFloat y = .finite negative m q) (hm : 0 < m)
    (hrounded : roundResult y = y) {body : List Char}
    (htext : (realText y).toList = signText negative ++ body) (hform : Token.IsDecimal body)
    (hread : ∃ d, Decimal.ofText? body = some d ∧ d.toRat = (Decimal.shortest m q).toRat) :
    ∃ v, ReadsBack negative body v := by
  obtain ⟨d, hread, hvalue⟩ := hread
  have hcanonical := canonical_of_ofFloat hy
  have hholds : (around m q).holds d = true := by
    rw [holds_iff, hvalue, ← holds_iff]
    exact holds_shortest hcanonical hm
  have hfloat := (holds_iff_toFloat (significand_pos_of_holds hm hholds) hcanonical hm).mp hholds
  -- The sign in front makes it the float itself, not only one of the same magnitude.
  have hsigned : (Value.real d.toFloat).signed negative = .real y := by
    cases negative with
    | false => exact congrArg Value.real (eq_of_ofFloat (hfloat.trans hy.symm))
    | true =>
      have hneg : ofFloat (-d.toFloat) = .finite true m q := by
        rw [ofFloat_neg, hfloat]
        rfl
      exact congrArg Value.real (eq_of_ofFloat (hneg.trans hy.symm))
  refine ⟨_, hform.isNumeral, Value.ofNumeral?_of_isDecimal hform hread, ?_, ?_⟩
  · rw [hsigned, Value.resultText, hrounded, htext]
  · rw [hsigned]
    exact isNaN_of_ofFloat hy

/-- The text of a rounded float other than zero. -/
theorem exists_readsBack_real (hy : ofFloat y = .finite negative m q) (hm : 0 < m)
    (hrounded : roundResult y = y) :
    ∃ body v, (realText y).toList = signText negative ++ body ∧ ReadsBack negative body v := by
  have hpos := significand_pos_of_holds hm (holds_shortest (canonical_of_ofFloat hy) hm)
  have hproper : (shortestFigures m q).Proper := (Figures.ofDecimal_proper hpos).trimmed
  have hvalue : (shortestFigures m q).toRat = (Decimal.shortest m q).toRat := by
    rw [shortestFigures, Figures.toRat_trimmed, Figures.toRat_ofDecimal]
  have htext : (realText y).toList = signText negative ++
      if -7 ≤ (shortestFigures m q).power ∧ (shortestFigures m q).power ≤ 20
      then (shortestFigures m q).positional else (shortestFigures m q).scientific := by
    rw [realText, hy]
    dsimp only
    rw [if_neg (Nat.ne_of_gt hm), String.toList_ofList]
  split at htext
  · rcases hproper.isDecimal_positional with ⟨n, hbody⟩ | hform
    · -- Without a point, the text is that of a whole number.
      rw [hbody] at htext
      refine ⟨_, _, htext, readsBack_digits negative (by simp [hproper.nonempty]) ?_ ?_⟩
      · intro c hc
        rcases List.mem_append.mp hc with hc | hc
        · exact hproper.isDigit c hc
        · rw [List.eq_of_mem_replicate hc]
          decide
      · intro c hc
        obtain ⟨d, rest, hcons⟩ := List.exists_cons_of_ne_nil hproper.nonempty
        rw [hcons] at hc
        exact hproper.head c (by rw [hcons]; exact hc)
    · have hread := hproper.ofText?_positional
      rw [hvalue] at hread
      exact ⟨_, (readsBack_decimal hy hm hrounded htext hform hread).imp fun _ h => ⟨htext, h⟩⟩
  · have hread := hproper.ofText?_scientific
    rw [hvalue] at hread
    exact ⟨_, (readsBack_decimal hy hm hrounded htext hproper.isDecimal_scientific hread).imp
      fun _ h => ⟨htext, h⟩⟩

end Reals

/-- Whether this is the infinite real, of either sign. -/
def Value.isInfinite : Value → Bool
  | .whole _ => false
  | .real x => x.isInf

/-- **The text of a finite value is read back**, as a value with the same text. -/
theorem Value.exists_readsBack {v : Value} (hnan : v.isNaN = false)
    (hfinite : v.isInfinite = false) :
    ∃ negative body w, v.resultText.toList = signText negative ++ body ∧
      ReadsBack negative body w := by
  have hzero : ReadsBack false ['0'] (.whole 0) :=
    ⟨Token.isNumeral_of_digits (List.cons_ne_nil _ _) (List.forall_mem_singleton.mpr (by decide)),
      by decide, by decide, rfl⟩
  cases v with
  | whole n =>
    by_cases hn : n = 0
    · exact ⟨false, ['0'], _, by rw [hn]; decide, hzero⟩
    · have hpos : 0 < n.natAbs := Int.natAbs_pos.mpr hn
      exact ⟨decide (n < 0), Nat.toDigits 10 n.natAbs, _, toList_toString_int n,
        readsBack_digits _ Nat.toDigits_ne_nil (fun c hc => isDigit_of_mem_toDigits hc)
          (toDigits_head_ne_zero hpos)⟩
  | real x =>
    obtain ⟨negative, m, q, hx⟩ : ∃ negative m q, ofFloat x = .finite negative m q := by
      change x.toModel.unpack.isNaN = false at hnan
      change x.toModel.unpack.isInf = false at hfinite
      rw [unpack_eq] at hnan hfinite
      cases hcontent : ofFloat x with
      | nan =>
        rw [hcontent] at hnan
        cases hnan
      | infinite negative =>
        rw [hcontent] at hfinite
        cases hfinite
      | finite negative m q => exact ⟨negative, m, q, rfl⟩
    obtain ⟨n, r, hy⟩ := exists_ofFloat_roundResult hx
    rcases Nat.eq_zero_or_pos n with rfl | hn
    · -- Zero is shown without its sign, and is read as a whole number.
      refine ⟨false, ['0'], _, ?_, hzero⟩
      rw [resultText, realText, hy]
      dsimp only
      rw [if_pos rfl]
      rfl
    · obtain ⟨body, w, htext, hread⟩ :=
        exists_readsBack_real hy hn (roundResult_roundResult x)
      exact ⟨negative, body, w, htext, hread⟩

end Reckoner
