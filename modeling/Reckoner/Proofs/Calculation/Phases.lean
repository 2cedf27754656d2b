/-
The phases of a calculation, and the errors of each.

A line has an error of the lexer exactly if it does not fall into tokens, and a fault of grammar
exactly if it does and the tokens are no expression. Evaluation comes after both, so a line that is
not read leaves the scope alone.

What is read calls nothing but functions of the library. So evaluation, with the same library, finds
each of them, and the only operation it can still refuse is an assignment to something other than a
name. That a result is not a number is noticed last, when evaluation has succeeded.
-/
import Reckoner.Calculation
import Reckoner.Proofs.Evaluation.Failures
import Reckoner.Proofs.Grammar.Spelling

set_option autoImplicit false

namespace Reckoner

/-- Whether an error refuses an operation as not supported. -/
def EvalError.isUnsupported : EvalError → Bool
  | .assignsTo _ | .needsExpression _ => true
  | .badNumeral _ | .unknownName _ | .unknownFunction _ | .wrongArity _ _ _ | .divisionByZero
  | .factorial _ => false

namespace Evaluator

open Reckoner.Expr (Part)

/-! ## The result of a line, phase by phase -/

/-- How a calculation ends once its expression has been evaluated. -/
def conclude : Except EvalError Value × Scope → Except Error Value × Scope
  | (.error error, after) => (.error (.evaluation error), after)
  | (.ok value, after) => if value.isNaN then (.error .notANumber, after) else (.ok value, after)

section Phases

variable {ev : Evaluator} {line : String} {tokens : List Token} {e : Expr}

theorem calculate_of_stray {c : Char} (h : Token.ofText line = .error c) (scope : Scope) :
    ev.calculate line scope = (.error (.strayCharacter c), scope) := by
  rw [calculate, detail, h]
  rfl

theorem calculate_of_malformed {fault : SyntaxFault} (htokens : Token.ofText line = .ok tokens)
    (h : Expr.ofTokens ev.library tokens = .error fault) (scope : Scope) :
    ev.calculate line scope = (.error (.malformed fault), scope) := by
  rw [calculate, detail, htokens]
  dsimp only
  rw [h]
  rfl

theorem calculate_of_read (htokens : Token.ofText line = .ok tokens)
    (he : Expr.ofTokens ev.library tokens = .ok e) (scope : Scope) :
    ev.calculate line scope = conclude ((ev.eval e).run scope) := by
  rw [calculate, detail, htokens]
  dsimp only
  rw [he]
  dsimp only
  rcases (ev.eval e).run scope with ⟨error | value, after⟩
  · rfl
  · rw [conclude]
    dsimp only
    by_cases hnan : value.isNaN = true
    · rw [if_pos hnan, if_pos hnan]
      rfl
    · rw [if_neg hnan, if_neg hnan]
      rfl

/-- A calculation ends in the first phase that fails, or with the evaluation of what was read. -/
theorem calculate_cases (ev : Evaluator) (line : String) (scope : Scope) :
    (∃ c, Token.ofText line = .error c ∧
        ev.calculate line scope = (.error (.strayCharacter c), scope)) ∨
      (∃ tokens fault, Token.ofText line = .ok tokens ∧
        Expr.ofTokens ev.library tokens = .error fault ∧
        ev.calculate line scope = (.error (.malformed fault), scope)) ∨
      ∃ tokens e, Token.ofText line = .ok tokens ∧ Expr.ofTokens ev.library tokens = .ok e ∧
        ev.calculate line scope = conclude ((ev.eval e).run scope) := by
  cases htokens : Token.ofText line with
  | error c => exact Or.inl ⟨c, rfl, calculate_of_stray htokens scope⟩
  | ok tokens =>
    cases he : Expr.ofTokens ev.library tokens with
    | error fault =>
      exact Or.inr (Or.inl ⟨tokens, fault, rfl, he, calculate_of_malformed htokens he scope⟩)
    | ok e => exact Or.inr (Or.inr ⟨tokens, e, rfl, he, calculate_of_read htokens he scope⟩)

/-- Once a line is read, its error is that of evaluation, or the value is not a number. -/
theorem conclude_eq_error {run : Except EvalError Value × Scope} {error : Error}
    (h : (conclude run).1 = .error error) :
    (∃ cause, run.1 = .error cause ∧ error = .evaluation cause) ∨
      (∃ value, run.1 = .ok value ∧ value.isNaN = true) ∧ error = .notANumber := by
  rcases run with ⟨cause | value, after⟩
  · exact Or.inl ⟨cause, rfl, (Except.error.inj h).symm⟩
  · rw [conclude] at h
    by_cases hnan : value.isNaN = true
    · rw [if_pos hnan] at h
      exact Or.inr ⟨⟨value, rfl, hnan⟩, (Except.error.inj h).symm⟩
    · rw [if_neg hnan] at h
      exact absurd h (by rintro ⟨⟩)

theorem conclude_of_isNaN {run : Except EvalError Value × Scope} {value : Value}
    (hvalue : run.1 = .ok value) (hnan : value.isNaN = true) :
    (conclude run).1 = .error .notANumber := by
  rcases run with ⟨outcome, after⟩
  obtain rfl : outcome = .ok value := hvalue
  rw [conclude, if_pos hnan]

/-! ## The errors of each phase -/

theorem calculate_eq_stray_iff {c : Char} {scope : Scope} :
    (ev.calculate line scope).1 = .error (.strayCharacter c) ↔ Token.ofText line = .error c := by
  constructor
  · intro h
    rcases ev.calculate_cases line scope with
      ⟨d, hd, hcalculate⟩ | ⟨tokens, fault, -, -, hcalculate⟩ | ⟨tokens, e, -, -, hcalculate⟩
    · rw [hcalculate] at h
      rw [hd, Error.strayCharacter.inj (Except.error.inj h)]
    · rw [hcalculate] at h
      exact absurd (Except.error.inj h) (by rintro ⟨⟩)
    · rw [hcalculate] at h
      rcases conclude_eq_error h with ⟨cause, -, ⟨⟩⟩ | ⟨-, ⟨⟩⟩
  · intro h
    rw [calculate_of_stray h]

theorem calculate_eq_malformed_iff {fault : SyntaxFault} {scope : Scope} :
    (ev.calculate line scope).1 = .error (.malformed fault) ↔
      ∃ tokens, Token.ofText line = .ok tokens ∧
        Expr.ofTokens ev.library tokens = .error fault := by
  constructor
  · intro h
    rcases ev.calculate_cases line scope with
      ⟨d, -, hcalculate⟩ | ⟨tokens, fault', htokens, he, hcalculate⟩ | ⟨tokens, e, -, -, hcalculate⟩
    · rw [hcalculate] at h
      exact absurd (Except.error.inj h) (by rintro ⟨⟩)
    · rw [hcalculate] at h
      rw [← Error.malformed.inj (Except.error.inj h)]
      exact ⟨tokens, htokens, he⟩
    · rw [hcalculate] at h
      rcases conclude_eq_error h with ⟨cause, -, ⟨⟩⟩ | ⟨-, ⟨⟩⟩
  · rintro ⟨tokens, htokens, he⟩
    rw [calculate_of_malformed htokens he]

/-- Evaluation finds every function of a line that was read, and refuses no operation but an
assignment. -/
theorem eval_error_of_read {scope : Scope} {cause : EvalError}
    (he : Expr.ofTokens ev.library tokens = .ok e)
    (h : ((ev.eval e).run scope).1 = .error cause) :
    (∀ function, cause ≠ .unknownFunction function) ∧
      (cause.isUnsupported = true →
        ∃ target value, Part (.assign target value) e ∧ ∀ text, target ≠ .name text) := by
  have hfails := ev.eval_failsWithin e scope cause h
  refine ⟨?_, fun hunsupported => ?_⟩
  · rintro function rfl
    obtain ⟨arguments, hcall, hget⟩ := hfails
    exact (Expr.spelledBy_of_ofTokens he fun _ ht => ht).get?_ne_none hcall hget
  · cases cause with
    | assignsTo target =>
      obtain ⟨value, hassign, htarget⟩ := hfails
      exact ⟨target, value, hassign, htarget⟩
    | needsExpression function => exact hfails.elim
    | badNumeral _ | unknownName _ | unknownFunction _ | wrongArity _ _ _ | divisionByZero
    | factorial _ => exact Bool.noConfusion hunsupported

end Phases

/-- **Each phase fails with its own errors only.** A line has a stray character exactly if the lexer
meets one, and a fault of grammar exactly if it falls into tokens that are no expression; a line that
is not read leaves the scope as it was. A line that is read has neither error. It calls no unknown
function, an operation of it is refused as not supported only if it has an assignment to something
other than a name, and it has no number for a result exactly if evaluation has given a NaN. -/
theorem calculate_error_phases (ev : Evaluator) (line : String) (scope : Scope) :
    (∀ c, (ev.calculate line scope).1 = .error (.strayCharacter c) ↔
        Token.ofText line = .error c) ∧
      (∀ fault, (ev.calculate line scope).1 = .error (.malformed fault) ↔
        ∃ tokens, Token.ofText line = .ok tokens ∧
          Expr.ofTokens ev.library tokens = .error fault) ∧
      ((∀ tokens e, Token.ofText line = .ok tokens → Expr.ofTokens ev.library tokens ≠ .ok e) →
        (ev.calculate line scope).2 = scope) ∧
      ∀ tokens e, Token.ofText line = .ok tokens → Expr.ofTokens ev.library tokens = .ok e →
        (∀ error, (ev.calculate line scope).1 = .error error →
          (∀ c, error ≠ .strayCharacter c) ∧
          (∀ fault, error ≠ .malformed fault) ∧
          (∀ function, error ≠ .evaluation (.unknownFunction function)) ∧
          (∀ cause, error = .evaluation cause → cause.isUnsupported = true →
            ∃ target value, Part (.assign target value) e ∧ ∀ text, target ≠ .name text)) ∧
        ((ev.calculate line scope).1 = .error .notANumber ↔
          ∃ value, ((ev.eval e).run scope).1 = .ok value ∧ value.isNaN = true) := by
  refine ⟨fun c => calculate_eq_stray_iff, fun fault => calculate_eq_malformed_iff, ?_, ?_⟩
  · intro hunread
    rcases ev.calculate_cases line scope with
      ⟨c, -, hcalculate⟩ | ⟨tokens, fault, -, -, hcalculate⟩ | ⟨tokens, e, htokens, he, -⟩
    · rw [hcalculate]
    · rw [hcalculate]
    · exact absurd he (hunread tokens e htokens)
  · intro tokens e htokens he
    rw [calculate_of_read htokens he]
    refine ⟨fun error herror => ?_, fun herror => ?_, ?_⟩
    · rcases conclude_eq_error herror with ⟨cause, hcause, rfl⟩ | ⟨-, rfl⟩
      · obtain ⟨hknown, hsupported⟩ := eval_error_of_read he hcause
        refine ⟨by rintro c ⟨⟩, by rintro fault ⟨⟩, ?_, ?_⟩
        · intro function hfunction
          exact hknown function (Error.evaluation.inj hfunction)
        · rintro cause' ⟨⟩
          exact hsupported
      · exact ⟨by rintro c ⟨⟩, by rintro fault ⟨⟩, by rintro function ⟨⟩, by rintro cause ⟨⟩⟩
    · rcases conclude_eq_error herror with ⟨cause, -, hcause⟩ | ⟨hnan, -⟩
      · exact absurd hcause (by rintro ⟨⟩)
      · exact hnan
    · rintro ⟨value, hvalue, hnan⟩
      exact conclude_of_isNaN hvalue hnan

/-- A sum is no name, so `a + 1 = 2` is read and then refused. Without its last token the line is not
read, and the scope stays as it is. -/
theorem calculate_error_phases_assignment :
    let ev : Evaluator := ⟨.standard, .degrees⟩
    let scope := Scope.ofList [("a", .whole 1)]
    let e : Expr := .assign (.binary .add (.name "a") (.numeral "1")) (.numeral "2")
    (∃ tokens, Token.ofText "a + 1 = 2" = .ok tokens ∧ Expr.ofTokens ev.library tokens = .ok e) ∧
      (ev.calculate "a + 1 = 2" scope).1 =
        .error (.evaluation (.assignsTo (.binary .add (.name "a") (.numeral "1")))) ∧
      (∃ target value, Part (.assign target value) e ∧ ∀ text, target ≠ .name text) ∧
      (ev.calculate "a + 1 =" scope).2 = scope := by
  intro ev scope e
  -- The lexer recurs on what is left behind a run, so it does not unfold by itself.
  have htokens : Token.ofText "a + 1 = 2" =
      .ok [.word "a", .op '+', .numeral "1", .op '=', .numeral "2"] := by
    with_unfolding_all rfl
  have he : Expr.ofTokens ev.library [.word "a", .op '+', .numeral "1", .op '=', .numeral "2"] =
      .ok e := by rfl
  have hunread : ∀ tokens e', Token.ofText "a + 1 =" = .ok tokens →
      Expr.ofTokens ev.library tokens ≠ .ok e' := by
    intro tokens e' htokens'
    have hshort : Token.ofText "a + 1 =" = .ok [.word "a", .op '+', .numeral "1", .op '='] := by
      with_unfolding_all rfl
    rw [← Except.ok.inj (hshort.symm.trans htokens')]
    rintro ⟨⟩
  have herror : (ev.calculate "a + 1 = 2" scope).1 =
      .error (.evaluation (.assignsTo (.binary .add (.name "a") (.numeral "1")))) := by
    rw [calculate_of_read htokens he]
    rfl
  have hread := (ev.calculate_error_phases "a + 1 = 2" scope).2.2.2 _ e htokens he
  refine ⟨⟨_, htokens, he⟩, herror, ?_, (ev.calculate_error_phases "a + 1 =" scope).2.2.1 hunread⟩
  exact (hread.1 _ herror).2.2.2 _ rfl rfl

end Evaluator
end Reckoner
