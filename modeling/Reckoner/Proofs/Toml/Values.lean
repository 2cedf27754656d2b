/-
Words and whole numbers at the end of a line.

A reader of values does not know what it is about to find, so it tries one kind after the other, and
most of what has to be shown of a value is what it is not. The digits of a number could begin a date,
a time or a real. Each of these needs a character other than a digit at some place, and behind the last
digit stands the end of the line, which is none of those characters.
-/
import Reckoner.Proofs.Decimal.Digits
import Reckoner.Toml.Document

set_option autoImplicit false

namespace Reckoner.Toml

/-- What begins with neither bracket is a value that holds no others. -/
theorem value?_scalar {cs : List Char} (hbracket : cs.head? ≠ some '[')
    (hbrace : cs.head? ≠ some '\x7b') (n : Nat) : value? n cs = scalar? cs := by
  cases n with
  | zero =>
    unfold value?
    split
    · exact absurd rfl hbracket
    · exact absurd rfl hbrace
    · rfl
  | succ n =>
    unfold value?
    split
    · exact absurd rfl hbracket
    · exact absurd rfl hbrace
    · rfl

/-! ## Words -/

/-- Whether a character stands for itself between double quotes. -/
def IsVerbatim (c : Char) : Prop :=
  isPlain c = true ∧ c ≠ '"' ∧ c ≠ '\\'

instance (c : Char) : Decidable (IsVerbatim c) :=
  inferInstanceAs (Decidable (_ ∧ _))

/-- A word is read up to the next quote. No character of it ends it before, or stands for another
one. -/
theorem basicRest?_verbatim {word : List Char} (hword : ∀ c ∈ word, IsVerbatim c) (rest : List Char)
    {fuel : Nat} (hfuel : word.length < fuel) :
    basicRest? fuel (word ++ '"' :: rest) = some (word, rest) := by
  -- On the word, of which each character takes one from the fuel.
  induction word generalizing fuel with
  | nil =>
    obtain ⟨fuel, rfl⟩ := Nat.exists_eq_succ_of_ne_zero (Nat.ne_of_gt hfuel)
    simp [basicRest?]
  | cons c word ih =>
    obtain ⟨⟨hplain, hquote, hslash⟩, hword⟩ := List.forall_mem_cons.mp hword
    obtain ⟨fuel, rfl⟩ := Nat.exists_eq_succ_of_ne_zero (Nat.ne_of_gt (Nat.zero_lt_of_lt hfuel))
    have hrest := ih hword (Nat.lt_of_succ_lt_succ hfuel)
    simp [basicRest?, hquote, hslash, hplain, hrest]

/-- A word in double quotes. Two quotes in a row would be most of an opening of another kind, but the
line ends behind the second. -/
theorem value?_word {word : List Char} (hword : ∀ c ∈ word, IsVerbatim c) (n : Nat)
    (rest : List Char) :
    value? n ('"' :: (word ++ '"' :: '\n' :: rest)) =
      some (.text (String.ofList word), '\n' :: rest) := by
  have hshort : string? ('"' :: (word ++ '"' :: '\n' :: rest)) =
      shortString? ('"' :: (word ++ '"' :: '\n' :: rest)) := by
    cases word with
    | nil => rfl
    | cons c word =>
      have hquote := (hword c List.mem_cons_self).2.1
      simp [string?, hquote]
  have hlength : word.length < (word ++ '"' :: '\n' :: rest).length + 1 := by
    rw [List.length_append]
    omega
  have hbasic := basicRest?_verbatim hword ('\n' :: rest) hlength
  rw [value?_scalar (by simp) (by simp)]
  simp only [scalar?, hshort, shortString?, hbasic]
  simp

/-! ## Digits up to the end of a line -/

/-- Digits and the end of a line, and anything behind it. -/
inductive DigitLine : List Char → Prop where
  | newline (rest : List Char) : DigitLine ('\n' :: rest)
  | digit {d : Char} {cs : List Char} : d.isDigit = true → DigitLine cs → DigitLine (d :: cs)

/-- Any digits may be in front of the end of the line. -/
theorem digitLine_append {ds : List Char} (hds : ∀ d ∈ ds, d.isDigit = true) (rest : List Char) :
    DigitLine (ds ++ '\n' :: rest) := by
  induction ds with
  | nil => exact .newline rest
  | cons d ds ih =>
    obtain ⟨hd, hds⟩ := List.forall_mem_cons.mp hds
    exact .digit hd (ih hds)

namespace DigitLine

variable {cs : List Char}

/-- Behind the digits that were taken off, the line goes on. -/
theorem drop (h : DigitLine cs) {n : Nat} (hlength : (cs.take n).length = n)
    (hall : (cs.take n).all Char.isDigit = true) : DigitLine (cs.drop n) := by
  induction n generalizing cs with
  | zero => exact h
  | succ n ih =>
    cases h with
    | newline rest => simp at hall
    | digit hd hcs =>
      simp only [List.take_succ_cons, List.length_cons, Nat.add_right_cancel_iff, List.all_cons,
        Bool.and_eq_true] at hlength hall
      exact ih hcs hlength hall.2

/-- Dates and times are read as fields of digits. Behind such a field the line is one of digits
again. -/
theorem field? (h : DigitLine cs) {n low high value : Nat} {rest : List Char}
    (hfield : Toml.field? n low high cs = some (value, rest)) : DigitLine rest := by
  simp only [Toml.field?, Option.ite_none_right_eq_some, Option.some.injEq, Prod.mk.injEq] at hfield
  obtain ⟨⟨hlength, hall, -⟩, -, rfl⟩ := hfield
  exact h.drop hlength hall

/-- What comes next is a digit or the end of the line. -/
theorem head?_ne (h : DigitLine cs) {c : Char} (hdigit : c.isDigit = false)
    (hnewline : c ≠ '\n') : cs.head? ≠ some c := by
  intro hhead
  cases h with
  | newline rest => exact hnewline (Option.some.inj hhead).symm
  | digit hd hcs => exact ne_of_isDigit hd hdigit (Option.some.inj hhead)

theorem char?_eq_none (h : DigitLine cs) {c : Char} (hdigit : c.isDigit = false)
    (hnewline : c ≠ '\n') : char? c cs = none := by
  have hhead := h.head?_ne hdigit hnewline
  cases cs with
  | nil => rfl
  | cons d cs => exact if_neg fun hd => hhead (congrArg some hd)

/-- A date has a dash behind its year. -/
theorem date?_eq_none (h : DigitLine cs) : date? cs = none := by
  rcases hyear : Toml.field? 4 0 9999 cs with _ | ⟨year, rest⟩
  · simp [date?, hyear]
  · have hdash := (h.field? hyear).char?_eq_none (c := '-') (by decide) (by decide)
    simp [date?, hyear, hdash]

/-- A time has a colon behind its hour. -/
theorem time?_eq_none (h : DigitLine cs) : time? cs = none := by
  rcases hhour : Toml.field? 2 0 23 cs with _ | ⟨hour, rest⟩
  · simp [time?, hhour]
  · have hcolon := (h.field? hhour).char?_eq_none (c := ':') (by decide) (by decide)
    simp [time?, hhour, hcolon]

theorem moment?_eq_none (h : DigitLine cs) : moment? cs = none := by
  simp [moment?, dateAndTime?, h.date?_eq_none, h.time?_eq_none]

/-- There is no sign in front. -/
theorem sign_eq (h : DigitLine cs) : sign cs = ([], cs) := by
  unfold sign
  split
  · exact absurd rfl (h.head?_ne (c := '+') (by decide) (by decide))
  · exact absurd rfl (h.head?_ne (c := '-') (by decide) (by decide))
  · rfl

/-- The words for reals begin with a letter. -/
theorem realWord?_eq_none (h : DigitLine cs) : realWord? [] cs = none := by
  unfold realWord?
  split
  · exact absurd rfl (h.head?_ne (c := 'i') (by decide) (by decide))
  · exact absurd rfl (h.head?_ne (c := 'n') (by decide) (by decide))
  · rfl

/-- Nothing but a number is tried. -/
theorem scalar?_eq (h : DigitLine cs) : scalar? cs = number? cs := by
  unfold scalar?
  split
  · exact absurd rfl (h.head?_ne (c := 't') (by decide) (by decide))
  · exact absurd rfl (h.head?_ne (c := 'f') (by decide) (by decide))
  · next c rest _ _ =>
    have hne : ∀ d : Char, d.isDigit = false → d ≠ '\n' → c ≠ d := by
      intro d hdigit hnewline hc
      exact h.head?_ne hdigit hnewline (congrArg some hc)
    have hdouble := hne '"' (by decide) (by decide)
    have hsingle := hne '\'' (by decide) (by decide)
    have hi := hne 'i' (by decide) (by decide)
    have hn := hne 'n' (by decide) (by decide)
    rw [if_neg (not_or.mpr ⟨hdouble, hsingle⟩), if_neg (not_or.mpr ⟨hi, hn⟩)]
  · cases h

/-- No letter stands behind a digit. -/
theorem second_ne (h : DigitLine cs) {c d : Char} (hd : d.isDigit = true)
    (hdigit : c.isDigit = false) (hnewline : c ≠ '\n') {rest : List Char} :
    cs ≠ d :: c :: rest := by
  rintro rfl
  cases h with
  | newline rest => exact absurd hd (by decide)
  | digit _ hcs => exact hcs.head?_ne hdigit hnewline rfl

end DigitLine

/-! ## Whole numbers -/

/-- Digits are taken up to the end of the line, with no underscore between them. -/
theorem moreDigits?_digits {ds : List Char} (hds : ∀ d ∈ ds, d.isDigit = true) (rest : List Char) :
    moreDigits? Char.isDigit (ds ++ '\n' :: rest) = some (ds, '\n' :: rest) := by
  induction ds with
  | nil => rfl
  | cons d ds ih =>
    obtain ⟨hd, hds⟩ := List.forall_mem_cons.mp hds
    have hunderscore : d ≠ '_' := ne_of_isDigit hd (by decide)
    simp [moreDigits?, hd, ih hds]

theorem digitLine_toDigits (n : Nat) (rest : List Char) :
    DigitLine (Nat.toDigits 10 n ++ '\n' :: rest) :=
  digitLine_append (fun _ hd => isDigit_of_mem_toDigits hd) rest

/-- The digits of a number are taken as a whole number: the first one is no zero, or the only one.
-/
theorem wholeDigits?_toDigits (n : Nat) (rest : List Char) :
    wholeDigits? (Nat.toDigits 10 n ++ '\n' :: rest) =
      some (Nat.toDigits 10 n, '\n' :: rest) := by
  rcases Nat.eq_zero_or_pos n with rfl | hn
  · rfl
  · have hhead := toDigits_head_ne_zero hn
    have hall : ∀ d ∈ Nat.toDigits 10 n, d.isDigit = true := fun d hd => isDigit_of_mem_toDigits hd
    obtain ⟨d, ds, hds⟩ := List.exists_cons_of_ne_nil (Nat.toDigits_ne_nil (b := 10) (n := n))
    rw [hds] at hhead hall ⊢
    obtain ⟨hd, hall⟩ := List.forall_mem_cons.mp hall
    simp [wholeDigits?, digits?, hhead d rfl, hd, moreDigits?_digits hall]

/-- They are no real, since neither a point nor a power of ten is behind them. -/
theorem real?_toDigits (n : Nat) (rest : List Char) :
    real? (Nat.toDigits 10 n ++ '\n' :: rest) = none := by
  have hline := digitLine_toDigits n rest
  simp [real?, hline.sign_eq, hline.realWord?_eq_none, wholeDigits?_toDigits, placesAndPower?, power?]

/-- They are an integer, if there is one of this size. In front of other bases there is a letter
behind the zero. -/
theorem integer?_toDigits {n : Nat} (hn : n < 2 ^ 63) (rest : List Char) :
    integer? (Nat.toDigits 10 n ++ '\n' :: rest) = some (.integer n, '\n' :: rest) := by
  have hline := digitLine_toDigits n rest
  have hfits : fitting? n = some (n : Int) := by
    rw [fitting?, if_pos]
    omega
  unfold integer?
  split
  · next heq => exact absurd heq (hline.second_ne (by decide) (by decide) (by decide))
  · next heq => exact absurd heq (hline.second_ne (by decide) (by decide) (by decide))
  · next heq => exact absurd heq (hline.second_ne (by decide) (by decide) (by decide))
  · simp [hline.sign_eq, wholeDigits?_toDigits, natOfDigits_toDigits, hfits]

/-- The digits of a number that fits 63 bits. -/
theorem value?_toDigits {n : Nat} (hn : n < 2 ^ 63) (depth : Nat) (rest : List Char) :
    value? depth (Nat.toDigits 10 n ++ '\n' :: rest) = some (.integer n, '\n' :: rest) := by
  have hline := digitLine_toDigits n rest
  rw [value?_scalar (hline.head?_ne (by decide) (by decide)) (hline.head?_ne (by decide) (by decide)),
    hline.scalar?_eq, number?, hline.moment?_eq_none, real?_toDigits, integer?_toDigits hn]
  rfl

end Reckoner.Toml
