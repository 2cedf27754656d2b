/-
Whole numbers on the screen.

A whole number whose text has at most 12 characters is shown with all its digits, and commas cut them
into groups of three. The groups are counted from the units, so only the first one may be shorter, and
none of them is empty. The sign takes one of the 12 characters, but belongs to no group.

A longer number is shown by its first six digits and a power of ten. Nothing is rounded here: the
number lies between what these six digits write and what the next six would. That is division of whole
numbers, without a detour through floats, so it holds of a number of any length.
-/
import Mathlib.Data.List.TakeWhile
import Reckoner.Proofs.Decimal.Digits
import Reckoner.Proofs.Lexer.Runs
import Reckoner.Proofs.Value.Texts
import Reckoner.Screen

set_option autoImplicit false

namespace Reckoner

namespace Screen

/-- A word stands in no text that lacks its first letter. -/
theorem mem_of_occursIn {letter : Char} {word cs : List Char}
    (h : occursIn (letter :: word) cs = true) : letter ∈ cs := by
  induction cs with
  | nil => exact absurd h (by simp [occursIn])
  | cons c cs ih =>
    rw [occursIn, Bool.or_eq_true] at h
    rcases h with hstarts | hbehind
    · have hprefix : letter :: word <+: c :: cs := List.isPrefixOf_iff_prefix.mp hstarts
      exact hprefix.subset List.mem_cons_self
    · exact List.mem_cons_of_mem c (ih hbehind)

/-! ## Groups of three -/

/-- Whether these are groups of three, of which the first may be shorter but not empty. -/
def InThrees : List (List Char) → Prop
  | [] => False
  | first :: more => 1 ≤ first.length ∧ first.length ≤ 3 ∧ ∀ group ∈ more, group.length = 3

theorem length_flatten_of_threes {groups : List (List Char)}
    (h : ∀ group ∈ groups, group.length = 3) : groups.flatten.length = 3 * groups.length := by
  induction groups with
  | nil => rfl
  | cons group groups ih =>
    obtain ⟨hgroup, hgroups⟩ := List.forall_mem_cons.mp h
    rw [List.flatten_cons, List.length_append, hgroup, ih hgroups, List.length_cons]
    omega

/-- Commas cut the digits into groups of three. The induction is on the digits from the left, and the
number of digits to the right of the first one says whether that one opens a group of its own: it does
exactly if the group behind it is full. -/
theorem exists_groups {ds : List Char} (hne : ds ≠ []) :
    ∃ groups, InThrees groups ∧ groups.flatten = ds ∧
      groupDigits ds = [','].intercalate groups := by
  induction ds with
  | nil => exact absurd rfl hne
  | cons d rest ih =>
    by_cases hrest : rest = []
    · subst hrest
      exact ⟨[[d]], ⟨by simp, by simp, by simp⟩, rfl, rfl⟩
    obtain ⟨groups, hthrees, hflat, hgroups⟩ := ih hrest
    cases groups with
    | nil => exact hthrees.elim
    | cons first more =>
      obtain ⟨hpos, hle, hmore⟩ := hthrees
      have hlength : rest.length = first.length + 3 * more.length := by
        rw [← hflat, List.flatten_cons, List.length_append, length_flatten_of_threes hmore]
      by_cases hfull : rest.length % 3 = 0
      · have hthree : first.length = 3 := by omega
        refine ⟨[d] :: first :: more, ⟨by simp, by simp, ?_⟩, ?_, ?_⟩
        · exact List.forall_mem_cons.mpr ⟨hthree, hmore⟩
        · rw [List.flatten_cons, hflat]
          rfl
        · rw [groupDigits, if_pos ⟨hrest, hfull⟩, hgroups, List.intercalate_cons_cons]
          rfl
      · refine ⟨(d :: first) :: more, ⟨by simp, ?_, hmore⟩, ?_, ?_⟩
        · rw [List.length_cons]
          omega
        · rw [← hflat]
          rfl
        · rw [groupDigits, if_neg fun h => hfull h.2, hgroups]
          cases more with
          | nil => rfl
          | cons second more =>
            rw [List.intercalate_cons_cons, List.intercalate_cons_cons]
            rfl

/-- Without the commas the digits are as they were. -/
theorem filter_groupDigits {ds : List Char} (h : ',' ∉ ds) :
    (groupDigits ds).filter (· != ',') = ds := by
  induction ds with
  | nil => rfl
  | cons d rest ih =>
    obtain ⟨hd, hrest⟩ := List.ne_and_not_mem_of_not_mem_cons h
    rw [groupDigits]
    split_ifs
    · simp [hd.symm, ih hrest]
    · simp [hd.symm, ih hrest]

/-! ## Signed digits -/

section Signed

variable {ds : List Char} (hdigits : ∀ d ∈ ds, d.isDigit = true)

include hdigits

/-- The sign is split off, and nothing else: no digit is a minus. -/
theorem splitMinus_signed (negative : Bool) :
    splitMinus (signText negative ++ ds) = (signText negative, ds) := by
  cases negative with
  | true => rfl
  | false =>
    show splitMinus ds = ([], ds)
    unfold splitMinus
    split
    · next rest =>
      exact absurd (hdigits '-' List.mem_cons_self) (by decide)
    · rfl

theorem groupThousands_signed (hne : ds ≠ []) (negative : Bool) :
    groupThousands (signText negative ++ ds) = signText negative ++ groupDigits ds := by
  unfold groupThousands
  rw [splitMinus_signed hdigits]
  exact if_pos ⟨hne, List.all_eq_true.mpr hdigits⟩

/-- Of two digits or more, the first six are kept. -/
theorem shortenWhole?_signed (hlength : 2 ≤ ds.length) (negative : Bool) :
    ∃ d behind, ds.take 6 = d :: behind ∧
      shortenWhole? (signText negative ++ ds) = some (signText negative ++ d :: '.' ::
        (behind ++ "e+".toList ++ Nat.toDigits 10 (ds.length - 1))) := by
  match ds, hlength with
  | d :: e :: rest, _ =>
    refine ⟨d, (e :: rest).take 5, rfl, ?_⟩
    unfold shortenWhole?
    rw [splitMinus_signed hdigits]
    exact if_pos (List.all_eq_true.mpr hdigits)

end Signed

end Screen

/-! ## The text of a whole number -/

section Whole

variable (n : Int)

/-- Nothing but digits and the minus stands in the text of a whole number. -/
theorem not_mem_toString_int {c : Char} (hdigit : c.isDigit = false) (hminus : c ≠ '-') :
    c ∉ (toString n).toList := by
  intro hc
  rw [toList_toString_int] at hc
  rcases List.mem_append.mp hc with hsign | hc
  · exact hminus (eq_of_mem_signText hsign)
  · exact Bool.false_ne_true (hdigit.symm.trans (isDigit_of_mem_toDigits hc))

/-- A text of ASCII characters has as many bytes as characters. -/
theorem utf8ByteSize_ofList_ascii {cs : List Char} (h : ∀ c ∈ cs, c.toNat ≤ 127) :
    (String.ofList cs).utf8ByteSize = cs.length := by
  induction cs with
  | nil => rfl
  | cons c cs ih =>
    obtain ⟨hc, hcs⟩ := List.forall_mem_cons.mp h
    have hone : c.utf8Size = 1 := Char.utf8Size_eq_one_iff.mpr (UInt32.le_iff_toNat_le.mpr hc)
    rw [String.ofList_cons, String.utf8ByteSize_append, String.utf8ByteSize_singleton, hone, ih hcs,
      List.length_cons, Nat.add_comm]

theorem utf8ByteSize_toString_int : (toString n).utf8ByteSize = (toString n).length := by
  rw [← String.length_toList, ← utf8ByteSize_ofList_ascii, String.ofList_toList]
  intro c hc
  rw [toList_toString_int] at hc
  rcases List.mem_append.mp hc with hsign | hc
  · rw [eq_of_mem_signText hsign]
    decide
  · have hcode := (Token.toNat_of_isDigit (isDigit_of_mem_toDigits hc)).2
    omega

/-- A whole number has neither a point nor a letter, so only its length decides how it is shown. -/
theorem screenText_toString_int :
    screenText (toString n) =
      if 12 < (toString n).length then
        match Screen.shortenWhole? (toString n).toList with
        | some short => String.ofList short
        | none => toString n
      else String.ofList (Screen.groupThousands (toString n).toList) := by
  have hletter : (toString n).toList.contains 'e' = false := by
    simpa using not_mem_toString_int n (c := 'e') (by decide) (by decide)
  have hnopoint : '.' ∉ (toString n).toList := not_mem_toString_int n (by decide) (by decide)
  have hpoint : ¬(toString n).toList.contains '.' = true := by simpa using hnopoint
  have hfailure : Screen.occursIn failureText.toList (toString n).toList = false := by
    refine Bool.eq_false_iff.mpr fun hoccurs => ?_
    exact not_mem_toString_int n (by decide) (by decide) (Screen.mem_of_occursIn hoccurs)
  have hwhole : (toString n).toList.takeWhile (· != '.') = (toString n).toList := by
    refine List.takeWhile_eq_self_iff.mpr fun c hc => ?_
    exact bne_iff_ne.mpr (ne_of_mem_of_not_mem hc hnopoint)
  have hread : ¬(Screen.occursIn failureText.toList (toString n).toList ||
      (toString n).toList.contains 'e') = true := by
    rw [hfailure, hletter]
    decide
  unfold screenText
  dsimp only
  rw [if_neg hread, utf8ByteSize_toString_int, if_neg hpoint, hwhole, List.drop_length,
    List.append_nil]
  rfl

/-- A whole number with room on the screen is shown with commas behind every third digit from the
right. -/
theorem screenText_short (hshort : (toString n).length ≤ 12) :
    (screenText (toString n)).toList =
      signText (decide (n < 0)) ++ Screen.groupDigits (Nat.toDigits 10 n.natAbs) := by
  have hdigits : ∀ c ∈ Nat.toDigits 10 n.natAbs, c.isDigit = true := fun c hc =>
    isDigit_of_mem_toDigits hc
  rw [screenText_toString_int, if_neg (by omega), String.toList_ofList, toList_toString_int,
    Screen.groupThousands_signed hdigits Nat.toDigits_ne_nil]

/-- The sign is one character at most, so a text that is too long has twelve digits at least. -/
theorem length_digits_of_long (hlong : 12 < (toString n).length) :
    12 ≤ (Nat.toDigits 10 n.natAbs).length := by
  have hsign : (signText (decide (n < 0))).length ≤ 1 := by
    cases decide (n < 0) <;> decide
  rw [← String.length_toList, toList_toString_int, List.length_append] at hlong
  omega

/-- Of a whole number without room on the screen the first six digits are shown, and the power of ten
that the first one counts. -/
theorem screenText_long (hlong : 12 < (toString n).length) :
    ∃ d behind, (Nat.toDigits 10 n.natAbs).take 6 = d :: behind ∧
      (screenText (toString n)).toList = signText (decide (n < 0)) ++ d :: '.' ::
        (behind ++ "e+".toList ++ Nat.toDigits 10 ((Nat.toDigits 10 n.natAbs).length - 1)) := by
  have hdigits : ∀ c ∈ Nat.toDigits 10 n.natAbs, c.isDigit = true := fun c hc =>
    isDigit_of_mem_toDigits hc
  have hlength := length_digits_of_long n hlong
  obtain ⟨d, behind, hsix, hshort⟩ :=
    Screen.shortenWhole?_signed hdigits (by omega) (decide (n < 0))
  refine ⟨d, behind, hsix, ?_⟩
  rw [screenText_toString_int, if_pos hlong, toList_toString_int, hshort, String.toList_ofList]

/-- **Whole numbers on the screen.** A text of at most 12 characters is shown unchanged but for commas,
which cut the digits behind the sign into groups of three, the first of one to three. Of a longer one
the screen shows the sign, one digit, a point, five digits, `e+` and the number of digits less one. The
six digits shown are those of the number rounded down. -/
theorem screenText_whole :
    ((toString n).length ≤ 12 →
        (screenText (toString n)).toList.filter (· != ',') = (toString n).toList ∧
          ∃ groups, Screen.InThrees groups ∧ groups.flatten = Nat.toDigits 10 n.natAbs ∧
            (screenText (toString n)).toList =
              signText (decide (n < 0)) ++ [','].intercalate groups) ∧
      (12 < (toString n).length →
        ∃ d behind k, (screenText (toString n)).toList =
            signText (decide (n < 0)) ++ d :: '.' :: (behind ++ "e+".toList ++ Nat.toDigits 10 k) ∧
          d.isDigit = true ∧ behind.length = 5 ∧ (∀ c ∈ behind, c.isDigit = true) ∧
          k + 1 = (Nat.toDigits 10 n.natAbs).length ∧ 5 ≤ k ∧
          natOfDigits (d :: behind) * 10 ^ (k - 5) ≤ n.natAbs ∧
          n.natAbs < (natOfDigits (d :: behind) + 1) * 10 ^ (k - 5)) := by
  have hdigits : ∀ c ∈ Nat.toDigits 10 n.natAbs, c.isDigit = true := fun c hc =>
    isDigit_of_mem_toDigits hc
  constructor
  · intro hshort
    have hsign : (signText (decide (n < 0))).filter (· != ',') = signText (decide (n < 0)) := by
      refine List.filter_eq_self.mpr fun c hc => ?_
      rw [eq_of_mem_signText hc]
      decide
    have hcomma : ',' ∉ Nat.toDigits 10 n.natAbs := fun hmem =>
      absurd (hdigits ',' hmem) (by decide)
    have hne : Nat.toDigits 10 n.natAbs ≠ [] := Nat.toDigits_ne_nil
    obtain ⟨groups, hthrees, hflat, hgroups⟩ := Screen.exists_groups hne
    rw [screenText_short n hshort]
    refine ⟨?_, groups, hthrees, hflat, by rw [hgroups]⟩
    rw [List.filter_append, hsign, Screen.filter_groupDigits hcomma, toList_toString_int]
  · intro hlong
    have hlength := length_digits_of_long n hlong
    obtain ⟨d, behind, hsix, hshown⟩ := screenText_long n hlong
    have hkept : ∀ c ∈ d :: behind, c.isDigit = true := by
      intro c hc
      rw [← hsix] at hc
      exact hdigits c (List.mem_of_mem_take hc)
    obtain ⟨hd, hbehind⟩ := List.forall_mem_cons.mp hkept
    have hfive : behind.length = 5 := by
      have hlen := congrArg List.length hsix
      rw [List.length_take, List.length_cons] at hlen
      omega
    have hbounds := natOfDigits_take_bounds hdigits 6
    have hpower : (Nat.toDigits 10 n.natAbs).length - 6 =
        (Nat.toDigits 10 n.natAbs).length - 1 - 5 := by omega
    rw [hsix, natOfDigits_toDigits, hpower] at hbounds
    exact ⟨d, behind, _, hshown, hd, hfive, hbehind, by omega, by omega, hbounds⟩

end Whole

/-- The sign takes one of the twelve characters. -/
example : screenText "-12345678901" = "-12,345,678,901" ∧
    screenText "-123456789012" = "-1.23456e+11" := by
  decide +kernel

end Reckoner
