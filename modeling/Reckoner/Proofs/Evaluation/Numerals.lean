/-
Numerals in a line, and their values.

The lexer cuts the numerals out of a line, and the evaluator reads them when it comes to them. The two
do not ask the same. The lexer takes digits and points as they come, and afterwards at most one power
of ten: `1.2.3`, `.` and `.e5` are numerals to it. The reader accepts what is a number. So there are
three kinds of numerals, and which one it is can be seen without either of them: those of digits only,
which are exact however long they are; those whose mantissa has two points or no digit; and the rest.
-/
import Reckoner.Evaluation
import Reckoner.Proofs.Lexer.Exactness
import Reckoner.Proofs.Value.Numerals

set_option autoImplicit false

namespace Reckoner

namespace Evaluator

variable {text : String}

/-! ## Running a numeral -/

/-- What a numeral evaluates to: its value, or itself as the text that has none. The scope does not
matter to it, and is left as it was. -/
theorem run_eval_numeral_eq (text : String) (ev : Evaluator) (scope : Scope) :
    (ev.eval (.numeral text)).run scope =
      (match Value.ofNumeral? text with
        | some v => .ok v
        | none => .error (.badNumeral text), scope) := by
  rw [eval]
  cases Value.ofNumeral? text with
  | none => rfl
  | some v => rfl

theorem run_eval_numeral {v : Value} (h : Value.ofNumeral? text = some v) (ev : Evaluator)
    (scope : Scope) : (ev.eval (.numeral text)).run scope = (.ok v, scope) := by
  rw [run_eval_numeral_eq, h]

/-! ## Numerals of a line -/

/-- **Numerals.** A numeral of a line is whole exactly if it is made of digits only, and is then the
number that they write in base ten. It has no value exactly if its mantissa has a second point or no
digit, and the failure names it. Otherwise it is real. -/
theorem eval_numeral_of_line {line : String} {tokens : List Token}
    (hline : Token.ofText line = .ok tokens) (hmem : .numeral text ∈ tokens)
    (ev : Evaluator) (scope : Scope) :
    let outcome : Except EvalError Value × Scope := (ev.eval (.numeral text)).run scope
    let isDigits := ∀ c ∈ text.toList, c.isDigit = true
    ((∃ n, outcome = (.ok (.whole n), scope)) ↔ isDigits) ∧
      (isDigits → outcome = (.ok (.whole (decimalReading text.toList)), scope)) ∧
      (outcome = (.error (.badNumeral text), scope) ↔ Token.IsMalformed text) ∧
      ((∃ x, outcome = (.ok (.real x), scope)) ↔ ¬isDigits ∧ ¬Token.IsMalformed text) := by
  intro outcome isDigits
  -- Of the line nothing matters but the shape that the lexer gives its numerals.
  have hnumeral : Token.IsNumeral text := (Token.comesFrom_of_ofChars hline _ hmem).1
  have hmalformed := Value.ofNumeral?_eq_none_iff hnumeral
  have hrun : outcome = _ := run_eval_numeral_eq text ev scope
  rw [← hmalformed, hrun]
  -- The reader decides by the characters whether to read an integer or a decimal.
  by_cases hdigits : isDigits
  · obtain ⟨c, rest, power, htext, -⟩ := id hnumeral
    have hvalue := Value.ofNumeral?_of_digits (by simp [htext]) hdigits
    simp [hvalue, hdigits]
  · have hvalue := Value.ofNumeral?_of_not_digits hnumeral hdigits
    rw [hvalue]
    cases Decimal.ofText? text.toList with
    | none => simp [hdigits]
    | some d => simp [hdigits]

/-- Digits with zeros in front, a point behind an exponent begins the next numeral, and a mantissa
may have two points. -/
theorem eval_numeral_of_line_points :
    Token.ofText "007 5.e3.5 1..2" =
        .ok [.numeral "007", .numeral "5.e3", .numeral ".5", .numeral "1..2"] ∧
      ((⟨.standard, .degrees⟩ : Evaluator).eval (.numeral "007")).run .empty =
        (.ok (.whole 7), .empty) ∧
      (∃ x, ((⟨.standard, .degrees⟩ : Evaluator).eval (.numeral "5.e3")).run .empty =
        (.ok (.real x), .empty)) ∧
      ((⟨.standard, .degrees⟩ : Evaluator).eval (.numeral "1..2")).run .empty =
        (.error (.badNumeral "1..2"), .empty) := by
  have hline : Token.ofText "007 5.e3.5 1..2" =
      .ok [.numeral "007", .numeral "5.e3", .numeral ".5", .numeral "1..2"] := by
    with_unfolding_all rfl
  have hpoint : ¬∀ c ∈ "5.e3".toList, c.isDigit = true := fun h =>
    absurd (h '.' (by decide)) (by decide)
  refine ⟨hline, ?_, ?_, ?_⟩
  · exact (eval_numeral_of_line hline (by decide) _ _).2.1 (List.all_eq_true.mp (by decide))
  · exact (eval_numeral_of_line hline (by decide) _ _).2.2.2.mpr ⟨hpoint, by decide⟩
  · exact (eval_numeral_of_line hline (by decide) _ _).2.2.1.mpr (by decide)

end Evaluator
end Reckoner
