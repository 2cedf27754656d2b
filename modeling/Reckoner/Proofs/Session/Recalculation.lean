/-
Calculating a result again.

The text of a finite result is a sign and a numeral, and is read back as a value of the same text.
So a second calculation succeeds, whatever the variables are, and the entry stays as it is; only the
line that is shown as the last one is another. The words for infinite results are no numerals. They
are read as names, and mostly as names that are not defined.
-/
import Reckoner.Proofs.Value.ReadBack

set_option autoImplicit false

namespace Reckoner

/-! ## The line of a result -/

/-- A numeral with or without a minus sign. -/
def Expr.signedNumeral (negative : Bool) (text : String) : Expr :=
  if negative then .unary .negate (.numeral text) else .numeral text

theorem Expr.ofTokens_signed (library : Library) (negative : Bool) (text : String) :
    ofTokens library (signTokens negative ++ [.numeral text]) =
      .ok (signedNumeral negative text) := by
  cases negative <;> rfl

namespace Evaluator

/-- What a text reads back as is the result of its calculation, and nothing is defined. -/
theorem calculate_readsBack {negative : Bool} {body : List Char} {v : Value}
    (h : ReadsBack negative body v) (ev : Evaluator) (scope : Scope) :
    ev.calculate (String.ofList (signText negative ++ body)) scope =
      (.ok (v.signed negative), scope) := by
  have htokens : Token.ofText (String.ofList (signText negative ++ body)) =
      .ok (signTokens negative ++ [.numeral (String.ofList body)]) := by
    have hnumeral := Token.ofChars_numeral h.isNumeral Token.Breaks.nil Token.ofChars_nil
    rw [String.toList_ofList, List.append_nil] at hnumeral
    rw [Token.ofText, String.toList_ofList]
    exact Token.ofChars_sign negative hnumeral
  have hrun : (ev.eval (Expr.signedNumeral negative (String.ofList body))).run scope =
      (.ok (v.signed negative), scope) := by
    have hvalue := run_eval_numeral h.value ev scope
    cases negative with
    | false => exact hvalue
    | true =>
      rw [Expr.signedNumeral, if_pos rfl, run_eval_negate, hvalue]
      rfl
  rw [calculate_of_read htokens (Expr.ofTokens_signed _ _ _), hrun, conclude, h.isNaN]
  rfl

/-- A result is a number. -/
theorem isNaN_of_calculate {ev : Evaluator} {line : String} {scope after : Scope} {value : Value}
    (h : ev.calculate line scope = (.ok value, after)) : value.isNaN = false := by
  rcases ev.calculate_cases line scope with
    ⟨c, -, hcalculate⟩ | ⟨tokens, fault, -, -, hcalculate⟩ | ⟨tokens, e, -, -, hcalculate⟩
  · rw [hcalculate] at h
    exact absurd (Prod.mk.inj h).1 (by rintro ⟨⟩)
  · rw [hcalculate] at h
    exact absurd (Prod.mk.inj h).1 (by rintro ⟨⟩)
  · rw [hcalculate] at h
    rcases hrun : (ev.eval e).run scope with ⟨error | result, after'⟩
    · rw [hrun, conclude] at h
      exact absurd (Prod.mk.inj h).1 (by rintro ⟨⟩)
    · rw [hrun, conclude] at h
      split at h
      · exact absurd (Prod.mk.inj h).1 (by rintro ⟨⟩)
      · next hnan =>
        obtain rfl := Except.ok.inj (Prod.mk.inj h).1
        exact Bool.eq_false_iff.mpr hnan

end Evaluator

/-- Preparing does not change the text of a result. -/
theorem preparedLine_resultText (v : Value) : preparedLine v.resultText = v.resultText := by
  refine preparedLine_eq_self fun c hc hmem => ?_
  simp only [List.mem_cons, List.not_mem_nil, or_false] at hmem
  have hnone := v.mem_resultText hc
  rcases hmem with rfl | rfl | rfl | rfl <;> exact absurd hnone (by decide)

namespace Session

/-- An entry that is the text of a finite result is the text of its own result. -/
theorem calculate_entry {s : Session} {result : Value} (hentry : s.entry = result.resultText)
    (hnan : result.isNaN = false) (hfinite : result.isInfinite = false) :
    ∃ again, again.resultText = s.entry ∧
      s.evaluator.calculate (preparedLine s.entry) s.scope = (.ok again, s.scope) := by
  obtain ⟨negative, body, v, htext, hread⟩ := Value.exists_readsBack hnan hfinite
  have hline : s.entry = String.ofList (signText negative ++ body) := by
    rw [hentry, ← htext, String.ofList_toList]
  refine ⟨v.signed negative, ?_, ?_⟩
  · rw [hline, ← hread.text, String.ofList_toList]
  · rw [hentry, preparedLine_resultText, ← hentry, hline]
    exact Evaluator.calculate_readsBack hread _ _

/-- **Calculating a result again.** Whatever a calculation began with, if its result is finite, the
next calculation succeeds and leaves everything as it is but the line that was calculated last. -/
theorem calculate_calculate {s s' : Session} {value : Value} (h : s.calculate = (.ok value, s'))
    (hfinite : value.isInfinite = false) :
    ∃ again, s'.calculate = (.ok again, { s' with history := s'.entry ++ " =" }) := by
  rcases s.calculate_cases with ⟨result, after, hline, hcalculate⟩ | ⟨error, after, hcalculate⟩
  · rw [hcalculate] at h
    obtain ⟨hresult, hs'⟩ := Prod.mk.inj h
    obtain rfl := Except.ok.inj hresult
    -- What the second calculation would set is already set by the first one.
    have hentry : s'.entry = result.resultText := by rw [← hs']
    have hfresh : s'.fresh = true := by rw [← hs']
    have hlast : s'.lastError = none := by rw [← hs']
    obtain ⟨again, htext, hagain⟩ :=
      calculate_entry hentry (Evaluator.isNaN_of_calculate hline) hfinite
    refine ⟨again, ?_⟩
    rw [calculate_of_ok hagain, htext, ← hfresh, ← hlast, hentry, preparedLine_resultText]
  · rw [hcalculate] at h
    exact absurd (Prod.mk.inj h).1 (by rintro ⟨⟩)

/-- The sum of 0.1 and 0.2 is a float that is rounded to 0.3, and this is calculated again. -/
theorem calculate_calculate_tenths :
    let s := { start {} with entry := "0.1+0.2" }
    s.calculate.2.entry = "0.3" ∧
      ∃ again, s.calculate.2.calculate =
        (.ok again, { s.calculate.2 with history := s.calculate.2.entry ++ " =" }) := by
  intro s
  have hvalue : s.calculate.1 = .ok (.real 0.30000000000000004) :=
    eq_ok_of_toOption (by decide +kernel)
  exact ⟨by decide +kernel, calculate_calculate
    (Prod.ext hvalue rfl : s.calculate = (.ok (.real 0.30000000000000004), s.calculate.2))
    (by decide +kernel)⟩

/-- A numeral that is too large for a float has an infinite value. Its text is a name that nothing
defines, so the next calculation fails. -/
theorem infinite_result_not_recalculated :
    let s := { start {} with entry := "1e999" }
    (∃ value, s.calculate.1 = .ok value) ∧ s.calculate.2.entry = "Infinity" ∧
      s.calculate.2.calculate.1 = .error (.evaluation (.unknownName "Infinity")) ∧
      s.calculate.2.calculate.2.entry ≠ s.calculate.2.entry := by
  intro s
  have hvalue : s.calculate.1.toOption.isSome = true := by decide +kernel
  obtain ⟨value, hsome⟩ := Option.isSome_iff_exists.mp hvalue
  have hfails : (match s.calculate.2.calculate.1 with
      | .error (.evaluation (.unknownName name)) => name == "Infinity"
      | _ => false) = true := by
    decide +kernel
  refine ⟨⟨value, eq_ok_of_toOption hsome⟩, by decide +kernel, ?_, by decide +kernel⟩
  split at hfails
  · next name herror => rw [herror, eq_of_beq hfails]
  · exact absurd hfails Bool.false_ne_true

end Session
end Reckoner
