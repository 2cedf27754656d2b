/-
Typing a line.

Digits and operators that are typed one by one into a new session make up the entry, as long as there
is room. Only a zero gives way to a digit behind it, so the first operand loses the zeros that it
begins with. Such zeros change nothing in the value of the line: calculating the entry is calculating
the line as it was typed.
-/
import Mathlib.Data.List.Chain
import Reckoner.Proofs.Calculation.LeadingZeros
import Reckoner.Proofs.Session.Keypad

set_option autoImplicit false

namespace Reckoner

/-! ## Lines that can be typed -/

/-- Whether a character is a digit or an operator that is typed as it stands. -/
def isTypedChar (c : Char) : Bool :=
  c.isDigit || c ∈ ['+', '-', '*', '/', '^']

/-- Digits and operators, where no operator stands at the beginning or behind another one. -/
structure IsTypedLine (cs : List Char) : Prop where
  head : ∀ c, cs.head? = some c → c.isDigit = true
  chars : ∀ c ∈ cs, isTypedChar c = true
  apart : cs.IsChain fun c d => c.isDigit = true ∨ d.isDigit = true

/-- The key that types a character. -/
def Key.ofChar (c : Char) : Key :=
  if c.isDigit = true then .digit c else .operator c

theorem ne_of_isTypedChar {c d : Char} (hc : isTypedChar c = true) (hd : isTypedChar d = false) :
    c ≠ d := by
  rintro rfl
  exact Bool.false_ne_true (hd.symm.trans hc)

namespace IsTypedLine

variable {cs : List Char} {c : Char}

theorem of_concat (h : IsTypedLine (cs ++ [c])) : IsTypedLine cs where
  head d hd := h.head d (by rw [List.head?_append, hd]; rfl)
  chars d hd := h.chars d (List.mem_append_left _ hd)
  apart := (List.isChain_append.mp h.apart).1

/-- An operator stands behind a digit. -/
theorem isDigit_of_concat (h : IsTypedLine (cs ++ [c])) (hc : c.isDigit = false) {d : Char}
    (hd : cs.getLast? = some d) : d.isDigit = true := by
  refine ((List.isChain_append.mp h.apart).2.2 d hd c rfl).resolve_right ?_
  exact Bool.eq_false_iff.mp hc

end IsTypedLine

/-! ## Zeros in front -/

/-- A line without the zeros in front of the first digit of its first operand that counts. -/
def trimZeros : List Char → List Char
  | '0' :: d :: rest => if d.isDigit = true then trimZeros (d :: rest) else '0' :: d :: rest
  | cs => cs

theorem trimZeros_of_ne {c : Char} (hc : c ≠ '0') (rest : List Char) :
    trimZeros (c :: rest) = c :: rest := by
  rw [trimZeros]
  intro d behind heq
  exact hc (List.cons.inj heq).1

theorem trimZeros_singleton (c : Char) : trimZeros [c] = [c] := by
  rw [trimZeros]
  intro d behind heq
  exact absurd (List.cons.inj heq).2.symm (List.cons_ne_nil _ _)

theorem trimZeros_suffix (cs : List Char) : trimZeros cs <:+ cs := by
  fun_induction trimZeros cs with
  | case1 d rest hd ih => exact ih.trans (List.suffix_cons _ _)
  | case2 d rest hd => exact List.suffix_refl _
  | case3 cs h => exact List.suffix_refl _

theorem trimZeros_ne_nil {cs : List Char} (hne : cs ≠ []) : trimZeros cs ≠ [] := by
  fun_induction trimZeros cs with
  | case1 d rest hd ih => exact ih (List.cons_ne_nil _ _)
  | case2 d rest hd => exact hne
  | case3 cs h => exact hne

/-- A digit behind a lone zero takes its place. -/
theorem trimZeros_concat {cs : List Char} (hne : cs ≠ []) (c : Char) :
    trimZeros (cs ++ [c]) =
      if trimZeros cs = ['0'] ∧ c.isDigit = true then [c] else trimZeros cs ++ [c] := by
  fun_induction trimZeros cs with
  | case1 d rest hd ih =>
    rw [List.cons_append, List.cons_append, trimZeros, if_pos hd, ← List.cons_append]
    exact ih (List.cons_ne_nil _ _)
  | case2 d rest hd =>
    rw [List.cons_append, List.cons_append, trimZeros, if_neg hd, if_neg (by simp)]
  | case3 cs h =>
    obtain ⟨x, rest, rfl⟩ := List.exists_cons_of_ne_nil hne
    by_cases hx : x = '0'
    · -- The zero stands alone, or it would have been the first case.
      subst hx
      cases rest with
      | nil =>
        rw [List.singleton_append, trimZeros]
        by_cases hc : c.isDigit = true
        · rw [if_pos hc, if_pos ⟨rfl, hc⟩, trimZeros_singleton]
        · rw [if_neg hc, if_neg fun h => hc h.2]
      | cons d rest => exact absurd rfl (h d rest)
    · rw [List.cons_append, trimZeros_of_ne hx, if_neg]
      rintro ⟨heq, -⟩
      exact hx (List.cons.inj heq).1

/-- The zeros at the beginning of a line of digits and operators change nothing in its value. -/
theorem Evaluator.calculate_trimZeros (ev : Evaluator) {cs : List Char}
    (hchars : ∀ c ∈ cs, isTypedChar c = true) (scope : Scope) :
    ev.calculate (String.ofList (trimZeros cs)) scope =
      ev.calculate (String.ofList cs) scope := by
  fun_induction trimZeros cs with
  | case1 d rest hd ih =>
    have hbehind := (List.forall_mem_cons.mp hchars).2
    have hne : ∀ c ∈ rest, ∀ e, isTypedChar e = false → c ≠ e := fun c hc e he =>
      ne_of_isTypedChar (hbehind c (List.mem_cons_of_mem d hc)) he
    rw [ih hbehind]
    refine (ev.calculate_zero_cons hd (fun c hc => ?_) (fun hmem => ?_) scope).symm
    · exact ⟨hne c hc _ (by decide), hne c hc _ (by decide), hne c hc _ (by decide)⟩
    · exact hne '=' hmem '=' (by decide) rfl
  | case2 d rest hd => rfl
  | case3 cs h => rfl

/-! ## Typing -/

namespace Entry

variable {cs : List Char} {c : Char}

/-- A digit is added, and the zero before it goes if there is nothing else. -/
theorem addDigit_trimZeros (hne : cs ≠ []) (hc : c.isDigit = true) {limit : Nat}
    (hroom : cs.length < limit) : addDigit limit c (trimZeros cs) = trimZeros (cs ++ [c]) := by
  have hpoint : c ≠ '.' := ne_of_isDigit hc (by decide)
  have hlength := (trimZeros_suffix cs).length_le
  rw [addDigit, if_neg fun h => hpoint h.1, if_neg (by omega), trimZeros_concat hne]
  by_cases hzero : trimZeros cs = ['0']
  · rw [if_pos ⟨hzero, hpoint⟩, if_pos ⟨hzero, hc⟩]
  · rw [if_neg fun h => hzero h.1, if_neg fun h => hzero h.1]

/-- An operator is added, since no operator stands at the end. -/
theorem addOperator_trimZeros (hne : cs ≠ []) (hline : IsTypedLine (cs ++ [c]))
    (hc : c.isDigit = false) : addOperator false c (trimZeros cs) = trimZeros (cs ++ [c]) := by
  have hnone : operatorsAtEnd (trimZeros cs) = [] := by
    obtain ⟨front, d, hfront⟩ := (List.eq_nil_or_concat' (trimZeros cs)).resolve_left
      (trimZeros_ne_nil hne)
    have hlast : cs.getLast? = some d := by
      obtain ⟨zeros, hzeros⟩ := trimZeros_suffix cs
      rw [← hzeros, hfront, ← List.append_assoc, List.getLast?_concat]
    rw [hfront, operatorsAtEnd_concat, if_neg]
    exact Bool.eq_false_iff.mp (isOperator_of_isDigit (hline.isDigit_of_concat hc hlast))
  rw [addOperator, hnone, trimZeros_concat hne, if_neg]
  · rfl
  · exact fun h => Bool.false_ne_true (hc.symm.trans h.2)

end Entry

namespace Session

/-- The first digit replaces the zero of a new session. -/
theorem press_first (settings : Settings) {c : Char} (hc : c.isDigit = true) :
    (start settings).press (.ofChar c) =
      { start settings with entry := String.ofList [c], fresh := false } := by
  have hpoint : c ≠ '.' := ne_of_isDigit hc (by decide)
  have hfresh : (start settings).fresh = true := rfl
  rw [Key.ofChar, if_pos hc, press, pressDigit, if_pos hfresh, edit, if_neg hpoint]

theorem press_typed {s : Session} {cs : List Char} {c : Char} (hfresh : s.fresh = false)
    (hentry : s.entry = String.ofList (trimZeros cs)) (hne : cs ≠ [])
    (hline : IsTypedLine (cs ++ [c])) (hroom : cs.length < s.settings.entryLimit) :
    s.press (.ofChar c) =
      { s with entry := String.ofList (trimZeros (cs ++ [c])), fresh := false } := by
  have hchars : s.entry.toList = trimZeros cs := by rw [hentry, String.toList_ofList]
  by_cases hc : c.isDigit = true
  · rw [Key.ofChar, if_pos hc, press, pressDigit, if_neg (Bool.eq_false_iff.mp hfresh), edit,
      hchars, Entry.addDigit_trimZeros hne hc hroom]
  · have hpercent : c ≠ '%' := ne_of_isTypedChar (hline.chars c (by simp)) (by decide)
    have hword : trimZeros cs ≠ failureText.toList := by
      intro heq
      have hmem : 'E' ∈ cs := (trimZeros_suffix cs).subset (by rw [heq]; decide)
      exact ne_of_isTypedChar (hline.chars 'E' (List.mem_append_left _ hmem)) (by decide) rfl
    rw [Key.ofChar, if_neg hc, press, pressOperator, if_neg hpercent, edit, hchars, if_neg hword,
      hfresh, Entry.addOperator_trimZeros hne hline (Bool.eq_false_iff.mpr hc)]

/-- What is typed is the entry, up to the zeros at the beginning. -/
theorem pressAll_typed (settings : Settings) {cs : List Char} (hne : cs ≠ [])
    (hline : IsTypedLine cs) (hroom : cs.length ≤ settings.entryLimit) :
    (start settings).pressAll (cs.map .ofChar) =
      { start settings with entry := String.ofList (trimZeros cs), fresh := false } := by
  -- From the end, since the last character is typed last.
  induction cs using List.reverseRecOn with
  | nil => exact absurd rfl hne
  | append_singleton cs c ih =>
    rw [List.length_append, List.length_singleton] at hroom
    rw [List.map_append, List.map_singleton, pressAll_concat]
    by_cases hfirst : cs = []
    · subst hfirst
      rw [List.nil_append, trimZeros_singleton]
      exact press_first settings (hline.head c rfl)
    · rw [ih hfirst hline.of_concat (by omega), press_typed rfl rfl hfirst hline]
      exact hroom

/-- **Typing a line is writing it.** A line of digits and operators that fits the entry is typed into
a new session. Then the entry is the line without the superfluous zeros of its first operand, and
calculating it has the outcome that the line itself has without any variables. -/
theorem calculate_typed (settings : Settings) {cs : List Char} (hne : cs ≠ [])
    (hline : IsTypedLine cs) (hroom : cs.length ≤ settings.entryLimit) :
    let s := (start settings).pressAll (cs.map .ofChar)
    s.entry = String.ofList (trimZeros cs) ∧
      s.calculate.1 = ((start settings).evaluator.calculate (String.ofList cs) ∅).1 := by
  intro s
  have hs : s = { start settings with entry := String.ofList (trimZeros cs), fresh := false } :=
    pressAll_typed settings hne hline hroom
  have hplain : ∀ c ∈ (String.ofList (trimZeros cs)).toList, c ∉ ['×', '÷', 'π', '('] := by
    intro c hc hmem
    rw [String.toList_ofList] at hc
    have htyped := hline.chars c ((trimZeros_suffix cs).subset hc)
    have hnone : ['×', '÷', 'π', '('].all (fun c => !isTypedChar c) = true := by decide
    have hnot := List.all_eq_true.mp hnone c hmem
    rw [htyped] at hnot
    exact Bool.false_ne_true hnot
  rw [calculate_fst, hs]
  refine ⟨rfl, ?_⟩
  dsimp only
  rw [preparedLine_eq_self hplain]
  exact congrArg Prod.fst (Evaluator.calculate_trimZeros _ hline.chars ∅)

/-- Two of the zeros are not in the entry. The one behind the plus is. -/
theorem calculate_typed_zeros :
    let cs := "007+02*3".toList
    let s := (start {}).pressAll (cs.map .ofChar)
    IsTypedLine cs ∧ cs.length ≤ ({} : Settings).entryLimit ∧ s.entry = "7+02*3" ∧
      s.calculate.1 = .ok (.whole 13) := by
  intro cs s
  have hline : IsTypedLine cs := by
    refine ⟨fun c hc => ?_, List.all_eq_true.mp (by decide), by decide⟩
    rw [← Option.some.inj hc]
    decide
  have hroom : cs.length ≤ ({} : Settings).entryLimit := by decide
  have hne : cs ≠ [] := List.cons_ne_nil _ _
  obtain ⟨hentry, houtcome⟩ := calculate_typed {} hne hline hroom
  have htokens : Token.ofText "007+02*3" =
      .ok [.numeral "007", .op '+', .numeral "02", .op '*', .numeral "3"] := by
    with_unfolding_all rfl
  have hread : Expr.ofTokens (start {}).evaluator.library
      [.numeral "007", .op '+', .numeral "02", .op '*', .numeral "3"] =
      .ok (.binary .add (.numeral "007") (.binary .mul (.numeral "02") (.numeral "3"))) := by rfl
  refine ⟨hline, hroom, hentry, houtcome.trans ?_⟩
  have hchars : String.ofList cs = "007+02*3" := String.ofList_toList
  rw [hchars, Evaluator.calculate_of_read htokens hread]
  rfl

end Session
end Reckoner
