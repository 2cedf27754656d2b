/-
What a calculation leaves in a session, and the lines that a result begins.

The text of a result is the next entry. It consists of a sign and a numeral, and no character of it
is one that preparing an entry changes. So the line that is calculated next begins with these
tokens, as they stand.
-/
import Reckoner.Proofs.Calculation.Phases
import Reckoner.Proofs.Evaluation.Numerals
import Reckoner.Proofs.Lexer.Runs
import Reckoner.Proofs.Value.Texts
import Reckoner.Session.Basic

set_option autoImplicit false

namespace Reckoner

/-! ## The two ends of a calculation -/

/-- Values can be compared by evaluation, and so can outcomes that are values. -/
theorem eq_ok_of_toOption {ε α : Type} {x : Except ε α} {a : α} (h : x.toOption = some a) :
    x = .ok a := by
  cases x with
  | error e => exact absurd h (by rintro ⟨⟩)
  | ok b => exact congrArg Except.ok (Option.some.inj h)

namespace Session

variable {s : Session}

/-- If the line has a value, its text is the next entry, and there is no failure to remember. -/
theorem calculate_of_ok {value : Value} {after : Scope}
    (h : s.evaluator.calculate (preparedLine s.entry) s.scope = (.ok value, after)) :
    s.calculate = (.ok value,
      { s with
        scope := after
        entry := value.resultText
        history := preparedLine s.entry ++ " ="
        fresh := true
        lastError := none }) := by
  rw [calculate, h]

/-- If the line has none, what is kept of the calculation is the scope alone. -/
theorem calculate_of_error {error : Error} {after : Scope}
    (h : s.evaluator.calculate (preparedLine s.entry) s.scope = (.error error, after)) :
    s.calculate = (.error error, { s with scope := after }.fail error) := by
  rw [calculate, h]

/-- A calculation has the outcome of its line. -/
theorem calculate_fst (s : Session) :
    s.calculate.1 = (s.evaluator.calculate (preparedLine s.entry) s.scope).1 := by
  rcases h : s.evaluator.calculate (preparedLine s.entry) s.scope with ⟨error | value, after⟩
  · rw [calculate_of_error h]
  · rw [calculate_of_ok h]

/-- A calculation shows its result, or that there is none. -/
theorem calculate_cases (s : Session) :
    (∃ value after, s.evaluator.calculate (preparedLine s.entry) s.scope = (.ok value, after) ∧
        s.calculate = (.ok value,
          { s with
            scope := after
            entry := value.resultText
            history := preparedLine s.entry ++ " ="
            fresh := true
            lastError := none })) ∨
      ∃ error after, s.calculate = (.error error, { s with scope := after }.fail error) := by
  rcases h : s.evaluator.calculate (preparedLine s.entry) s.scope with ⟨error | value, after⟩
  · exact Or.inr ⟨error, after, calculate_of_error h⟩
  · exact Or.inl ⟨value, after, rfl, calculate_of_ok h⟩

end Session

/-! ## Preparing a line -/

/-- There are three characters that are written otherwise in a line. -/
theorem Entry.expand_of_not_mem {c : Char} (h : c ∉ ['×', '÷', 'π']) : expand c = [c] := by
  unfold expand
  split
  · exact absurd (by decide) h
  · exact absurd (by decide) h
  · exact absurd (by decide) h
  · rfl

theorem Entry.flatMap_expand {cs : List Char} (h : ∀ c ∈ cs, c ∉ ['×', '÷', 'π']) :
    cs.flatMap expand = cs := by
  induction cs with
  | nil => rfl
  | cons c cs ih =>
    obtain ⟨hc, hrest⟩ := List.forall_mem_cons.mp h
    rw [List.flatMap_cons, expand_of_not_mem hc, ih hrest]
    rfl

/-- Preparing changes nothing in a text without symbols and parentheses. -/
theorem preparedLine_eq_self {text : String} (h : ∀ c ∈ text.toList, c ∉ ['×', '÷', 'π', '(']) :
    preparedLine text = text := by
  have hexpand : text.toList.flatMap Entry.expand = text.toList :=
    Entry.flatMap_expand fun c hc hmem => h c hc (List.mem_append_left ['('] hmem)
  have hopen : text.toList.count '(' = 0 :=
    List.count_eq_zero.mpr fun hmem => h '(' hmem (by decide)
  rw [preparedLine, Entry.prepare, hexpand, Entry.missingParentheses, hopen, Nat.zero_sub]
  exact (congrArg String.ofList (List.append_nil _)).trans String.ofList_toList

/-! ## Signed numerals -/

/-- The tokens of a sign. -/
def signTokens (negative : Bool) : List Token :=
  if negative then [.op '-'] else []

/-- A sign in front of a text is a token in front of its tokens. -/
theorem Token.ofChars_sign (negative : Bool) {rest : List Char} {ts : List Token}
    (h : ofChars rest = .ok ts) :
    ofChars (signText negative ++ rest) = .ok (signTokens negative ++ ts) := by
  cases negative with
  | false => exact h
  | true => exact ofChars_op (by decide) h

/-- A minus takes the opposite of what its operand gives, and leaves the scope as the operand does.
-/
theorem Evaluator.run_eval_negate (ev : Evaluator) (scope : Scope) (operand : Expr) :
    (ev.eval (.unary .negate operand)).run scope =
      match (ev.eval operand).run scope with
      | (.error error, after) => (.error error, after)
      | (.ok value, after) => (.ok value.neg, after) := by
  rw [eval, EvalM.run_bind]
  rcases (ev.eval operand).run scope with ⟨error | value, after⟩
  · rfl
  · rfl

end Reckoner
