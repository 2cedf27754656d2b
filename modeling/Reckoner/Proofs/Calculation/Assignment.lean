/-
Assignments that fail.

A value is computed before it is given to a name, and only then does the name change. So whatever
makes the value fail, the scope is as it was before. One failure comes later than that. That a result
is not a number is noticed when evaluation is over, and by then the name has it for a value.
-/
import Reckoner.Proofs.Calculation.Phases
import Reckoner.Proofs.Evaluation.Frame

set_option autoImplicit false

namespace Reckoner.Evaluator

/-- An assignment of a value without assignments changes the scope only when its value is known. -/
theorem run_eval_assign (ev : Evaluator) (name : String) {value : Expr}
    (hvalue : value.hasAssignment = false) (scope : Scope) :
    (ev.eval (.assign (.name name) value)).run scope =
      match ((ev.eval value).run scope).1 with
      | .error error => (.error error, scope)
      | .ok result => (.ok result, scope.define name result) := by
  have hscope := ev.run_eval_snd hvalue scope
  rw [eval, EvalM.run_bind]
  rcases hrun : (ev.eval value).run scope with ⟨error | result, after⟩
  · rw [hrun] at hscope
    obtain rfl : after = scope := hscope
    rfl
  · rw [hrun] at hscope
    obtain rfl : after = scope := hscope
    rfl

/-- **A failed assignment.** A line assigns a value without assignments to a name, and its calculation
fails. Unless the result is not a number, the scope is as it was before. If it is not, then the name
has that value afterwards, and this is all that has changed. -/
theorem calculate_failed_assignment (ev : Evaluator) {line name : String} {tokens : List Token}
    {value : Expr} (htokens : Token.ofText line = .ok tokens)
    (hread : Expr.ofTokens ev.library tokens = .ok (.assign (.name name) value))
    (hvalue : value.hasAssignment = false) {scope : Scope} {error : Error}
    (herror : (ev.calculate line scope).1 = .error error) :
    (error ≠ .notANumber → (ev.calculate line scope).2 = scope) ∧
      (error = .notANumber → ∃ result, ((ev.eval value).run scope).1 = .ok result ∧
        result.isNaN = true ∧ (ev.calculate line scope).2 = scope.define name result) := by
  rw [calculate_of_read htokens hread, run_eval_assign ev name hvalue] at herror ⊢
  cases hresult : ((ev.eval value).run scope).1 with
  | error cause =>
    rw [hresult] at herror
    obtain rfl : Error.evaluation cause = error := Except.error.inj herror
    exact ⟨fun _ => rfl, by rintro ⟨⟩⟩
  | ok result =>
    rw [hresult] at herror
    by_cases hnan : result.isNaN = true
    · simp only [conclude, if_pos hnan] at herror ⊢
      obtain rfl : Error.notANumber = error := Except.error.inj herror
      exact ⟨fun hne => absurd rfl hne, fun _ => ⟨result, rfl, hnan, rfl⟩⟩
    · simp only [conclude, if_neg hnan] at herror
      exact absurd herror (by rintro ⟨⟩)

/-- The integral of `1 / (k - x)` fails in the middle of its samples, when `x` is bound to the place
where the divisor is zero. Afterwards `x` is what it was, and so is `k`. -/
theorem calculate_failed_assignment_integral :
    let ev : Evaluator := ⟨.standard, .degrees⟩
    let scope := Scope.ofList [("k", .whole 1), ("x", .whole 7)]
    (ev.calculate "k = integral(1 / (k - x), 0, 10)" scope).1 =
        .error (.evaluation .divisionByZero) ∧
      (ev.calculate "k = integral(1 / (k - x), 0, 10)" scope).2 = scope := by
  intro ev scope
  have htokens : Token.ofText "k = integral(1 / (k - x), 0, 10)" =
      .ok [.word "k", .op '=', .word "integral", .op '(', .numeral "1", .op '/', .op '(',
        .word "k", .op '-', .word "x", .op ')', .op ',', .numeral "0", .op ',', .numeral "10",
        .op ')'] := by
    with_unfolding_all rfl
  have hfails : ((ev.calculate "k = integral(1 / (k - x), 0, 10)" scope).1 matches
      .error (.evaluation .divisionByZero)) = true := by
    decide +kernel
  have herror : (ev.calculate "k = integral(1 / (k - x), 0, 10)" scope).1 =
      .error (.evaluation .divisionByZero) := by
    split at hfails
    · assumption
    · exact absurd hfails Bool.false_ne_true
  refine ⟨herror, ?_⟩
  exact (ev.calculate_failed_assignment htokens rfl rfl herror).1 (by rintro ⟨⟩)

/-- The square root of -1 is not a number, so the calculation fails, and yet `k` has it for a value. -/
theorem failed_assignment_defines_nan :
    let ev : Evaluator := ⟨.standard, .degrees⟩
    let tokens : List Token :=
      [.word "k", .op '=', .word "sqrt", .op '(', .op '-', .numeral "1", .op ')']
    let value : Expr := .call "sqrt" [.unary .negate (.numeral "1")]
    Token.ofText "k = sqrt(-1)" = .ok tokens ∧
      Expr.ofTokens ev.library tokens = .ok (.assign (.name "k") value) ∧
      value.hasAssignment = false ∧
      (ev.calculate "k = sqrt(-1)" ∅).1 = .error .notANumber ∧
      (ev.calculate "k = sqrt(-1)" ∅).2 ≠ ∅ := by
  intro ev tokens value
  have hdefined : ((ev.calculate "k = sqrt(-1)" ∅).2.get? "k").isSome = true := by decide +kernel
  refine ⟨by with_unfolding_all rfl, rfl, rfl, by with_unfolding_all rfl, fun hempty => ?_⟩
  rw [hempty] at hdefined
  exact absurd hdefined (by decide)

end Reckoner.Evaluator
