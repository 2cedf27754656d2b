/-
How large an expression is, and how deep.

The size of an expression is the number of its nodes, its height the number of steps from the root to
the farthest leaf. The height says how deep the recursions over an expression go. Showing and
evaluating are written once more here, with a limit on the number of calls that are open inside one
another: with more calls than the height they come to the same, so a limit on the height is one on the
stack that they need.
-/
import Reckoner.Evaluation

set_option autoImplicit false

namespace Reckoner

/-! ## Height and size -/

namespace Expr

mutual

/-- The number of steps from the root of an expression to its farthest leaf. -/
def height : Expr → Nat
  | .numeral _ => 0
  | .name _ => 0
  | .unary _ operand => operand.height + 1
  | .binary _ left right => max left.height right.height + 1
  | .call _ arguments => argumentsHeight arguments
  | .assign target value => max target.height value.height + 1

/-- The number of steps from a call to the farthest leaf of its arguments, if it has any. -/
def argumentsHeight : List Expr → Nat
  | [] => 0
  | e :: es => max (e.height + 1) (argumentsHeight es)

end

mutual

/-- The number of nodes of an expression. -/
def size : Expr → Nat
  | .numeral _ => 1
  | .name _ => 1
  | .unary _ operand => operand.size + 1
  | .binary _ left right => left.size + right.size + 1
  | .call _ arguments => argumentsSize arguments + 1
  | .assign target value => target.size + value.size + 1

/-- The number of nodes of the arguments of a call. -/
def argumentsSize : List Expr → Nat
  | [] => 0
  | e :: es => e.size + argumentsSize es

end

theorem height_lt_of_mem {es : List Expr} {e : Expr} (he : e ∈ es) :
    e.height < argumentsHeight es := by
  induction es with
  | nil => exact absurd he List.not_mem_nil
  | cons e' es ih =>
    rw [argumentsHeight]
    rcases List.mem_cons.mp he with rfl | he
    · omega
    · have := ih he
      omega

end Expr

/-! ## Recursion with a limit -/

/-- The text of an expression, if showing it takes no more than `levels` calls inside one another. -/
def Expr.renderWithin : Nat → Expr → Option String
  | 0, _ => none
  | _ + 1, .numeral text => some text
  | _ + 1, .name text => some text
  | levels + 1, .unary op operand => do
    let shown ← operand.renderWithin levels
    some ("(" ++ op.symbol.toString ++ shown ++ ")")
  | levels + 1, .binary op left right => do
    let shownLeft ← left.renderWithin levels
    let shownRight ← right.renderWithin levels
    some ("(" ++ shownLeft ++ " " ++ op.symbol.toString ++ " " ++ shownRight ++ ")")
  | levels + 1, .call function arguments => do
    let shown ← arguments.mapM (renderWithin levels)
    some (function ++ "(" ++ ", ".intercalate shown ++ ")")
  | levels + 1, .assign target value => do
    let shownTarget ← target.renderWithin levels
    let shownValue ← value.renderWithin levels
    some (shownTarget ++ " = " ++ shownValue)

/-- The action that evaluates an expression, if it takes no more than `levels` evaluations inside one
another. -/
def Evaluator.evalWithin (ev : Evaluator) : Nat → Expr → Option (EvalM Value)
  | 0, _ => none
  | _ + 1, .numeral text =>
    match Value.ofNumeral? text with
    | some value => some (return value)
    | none => some (throw (.badNumeral text))
  | _ + 1, .name text => some (EvalM.read text)
  | levels + 1, .unary op operand => do
    let action ← ev.evalWithin levels operand
    some do
      let value ← action
      return op.apply value
  | levels + 1, .binary op left right => do
    let actionLeft ← ev.evalWithin levels left
    let actionRight ← ev.evalWithin levels right
    some do
      let a ← actionLeft
      let b ← actionRight
      EvalM.ofExcept (op.apply a b)
  | levels + 1, .call function arguments => do
    let actions ← arguments.mapM (ev.evalWithin levels)
    some (ev.call function actions)
  | levels + 1, .assign target value =>
    match target with
    | .name text => do
      let action ← ev.evalWithin levels value
      some do
        let result ← action
        EvalM.define text result
        return result
    | _ => some (throw (.assignsTo target))

/-- Where a function has a result for each element, the results are found together. -/
theorem mapM_eq_some_map {α β : Type} {f : α → Option β} {g : α → β} {as : List α}
    (h : ∀ a ∈ as, f a = some (g a)) : as.mapM f = some (as.map g) := by
  induction as with
  | nil => rfl
  | cons a as ih =>
    obtain ⟨ha, has⟩ := List.forall_mem_cons.mp h
    rw [List.mapM_cons, ha, ih has]
    rfl

section Limit

variable {e : Expr} {levels : Nat}

/-- More calls than the height are enough for showing an expression. -/
theorem Expr.renderWithin_eq (h : e.height < levels) : e.renderWithin levels = some e.render := by
  -- By induction on the limit, of which each node takes one call.
  induction levels generalizing e with
  | zero => omega
  | succ levels ih =>
    cases e with
    | numeral text | name text => rfl
    | unary op operand =>
      rw [height] at h
      rw [renderWithin, ih (by omega)]
      rfl
    | binary op left right =>
      rw [height] at h
      rw [renderWithin, ih (by omega), ih (by omega)]
      rfl
    | call function arguments =>
      rw [height] at h
      have harguments : ∀ e ∈ arguments, e.renderWithin levels = some e.render := by
        intro e he
        have := height_lt_of_mem he
        exact ih (by omega)
      rw [renderWithin, mapM_eq_some_map harguments, render, renderAll_eq_map]
      rfl
    | assign target value =>
      rw [height] at h
      rw [renderWithin, ih (by omega), ih (by omega)]
      rfl

/-- More evaluations than the height are enough for evaluating an expression. -/
theorem Evaluator.evalWithin_eq (ev : Evaluator) (h : e.height < levels) :
    ev.evalWithin levels e = some (ev.eval e) := by
  induction levels generalizing e with
  | zero => omega
  | succ levels ih =>
    cases e with
    | numeral text =>
      rw [evalWithin, eval]
      cases Value.ofNumeral? text with
      | none => rfl
      | some value => rfl
    | name text => rfl
    | unary op operand =>
      rw [Expr.height] at h
      rw [evalWithin, ih (by omega)]
      rfl
    | binary op left right =>
      rw [Expr.height] at h
      rw [evalWithin, ih (by omega), ih (by omega)]
      rfl
    | call function arguments =>
      rw [Expr.height] at h
      have harguments : ∀ e ∈ arguments, ev.evalWithin levels e = some (ev.eval e) := by
        intro e he
        have := Expr.height_lt_of_mem he
        exact ih (by omega)
      rw [evalWithin, mapM_eq_some_map harguments, eval, evalAll_eq_map]
      rfl
    | assign target value =>
      rw [Expr.height] at h
      -- Only a bare name is a target, and a target is never evaluated.
      cases target with
      | name text =>
        rw [evalWithin, ih (by omega)]
        rfl
      | numeral _ | unary _ _ | binary _ _ _ | call _ _ | assign _ _ => rfl

end Limit

end Reckoner
