/-
Evaluation: the value of an expression in a scope.

Evaluation reads and writes the scope as it goes, from left to right, and stops at the first
failure. What it has written until then stays written.

A call hands over its arguments as actions. An ordinary function runs each of them once and then
works on their values. Integration and differentiation run the actions of the bounds or the point,
and then the first action again and again, each time after setting the bound name to the place of
the sample; when they are done, in whatever way, the bound name is as it was before.
-/
import Reckoner.Calculus.Derivative
import Reckoner.Calculus.Integral
import Reckoner.Library
import Reckoner.Scope

set_option autoImplicit false

namespace Reckoner

/-- An action on a scope that may fail. Failing does not undo what was written. -/
abbrev EvalM := ExceptT EvalError (StateM Scope)

namespace EvalM

/-- An outcome that does not depend on the scope. -/
def ofExcept {α : Type} (outcome : Except EvalError α) : EvalM α :=
  ExceptT.mk (pure outcome)

/-- An action goes on from where another one has succeeded, and fails where it has failed. This holds
whatever the state and the failures are. -/
theorem run_bind {ε σ α β : Type} (action : ExceptT ε (StateM σ) α)
    (next : α → ExceptT ε (StateM σ) β) (s : σ) :
    (action >>= next).run s =
      match action.run s with
      | (.ok a, after) => (next a).run after
      | (.error error, after) => (.error error, after) := by
  rw [ExceptT.run_bind]
  simp only [bind, StateT.bind]
  rcases action.run s with ⟨error | a, after⟩
  · rfl
  · rfl

/-- One action after the other succeeds only if both do, the second one where the first has ended. -/
theorem run_bind_eq_ok {α β : Type} {action : EvalM α} {next : α → EvalM β} {b : β}
    {scope after : Scope} (h : (action >>= next).run scope = (.ok b, after)) :
    ∃ a middle, action.run scope = (.ok a, middle) ∧ (next a).run middle = (.ok b, after) := by
  rw [run_bind] at h
  rcases haction : action.run scope with ⟨error | a, middle⟩
  · rw [haction] at h
    exact absurd (Prod.mk.inj h).1 (by rintro ⟨⟩)
  · rw [haction] at h
    exact ⟨a, middle, rfl, h⟩

/-- Reads a name in the current scope. -/
def read (name : String) : EvalM Value := do
  let scope ← get
  ofExcept (scope.read name)

/-- Defines a name in the current scope. -/
def define (name : String) (value : Value) : EvalM Unit :=
  modify fun scope => scope.define name value

/-- Runs actions one after the other. -/
def all {α : Type} : List (EvalM α) → EvalM (List α)
  | [] => return []
  | action :: rest => do
    let value ← action
    let values ← all rest
    return value :: values

/-- Runs an action that uses the bound name, and then puts the name back to how it was. -/
def bound {α : Type} (action : EvalM α) : EvalM α :=
  ExceptT.mk (Scope.binding boundName action.run)

/-- The float of an action's value where the bound name is `x`. -/
def sample (action : EvalM Value) (x : Float) : EvalM Float := do
  define boundName (.real x)
  let value ← action
  return value.toFloat

/-- The integral of an action over the bound name. -/
def integral (integrand : EvalM Value) (a b : Float) : EvalM Float :=
  bound (integrate integrand.sample a b)

/-- The derivative of an action with respect to the bound name. -/
def derivative (f : EvalM Value) (x : Float) : EvalM Float :=
  bound (differentiate f.sample x)

end EvalM

/-- What the value of an expression depends on besides the scope. -/
structure Evaluator where
  library : Library
  mode : AngleMode
  deriving Repr, Inhabited

namespace Evaluator

/-- Calls a function, given the actions of its arguments. -/
def call (ev : Evaluator) (name : String) (actions : List (EvalM Value)) : EvalM Value :=
  match ev.library.get? name with
  | some .integral =>
    match actions with
    | [integrand, lower, upper] => do
      -- The bounds come before the first sample, and see the bound name as the caller has it.
      let a ← lower
      let b ← upper
      return .real (← EvalM.integral integrand a.toFloat b.toFloat)
    | _ => throw (.wrongArity name Function.integral.arity actions.length)
  | some .derivative =>
    match actions with
    | [f, point] => do
      let x ← point
      return .real (← EvalM.derivative f x.toFloat)
    | _ => throw (.wrongArity name Function.derivative.arity actions.length)
  | some _ => do
    let values ← EvalM.all actions
    EvalM.ofExcept (ev.library.call ev.mode name values)
  | none => throw (.unknownFunction name)

mutual

/-- The value of an expression. -/
def eval (ev : Evaluator) : Expr → EvalM Value
  | .numeral text =>
    match Value.ofNumeral? text with
    | some value => return value
    | none => throw (.badNumeral text)
  | .name text => EvalM.read text
  | .unary op operand => do
    let value ← ev.eval operand
    return op.apply value
  | .binary op left right => do
    let a ← ev.eval left
    let b ← ev.eval right
    EvalM.ofExcept (op.apply a b)
  | .call function arguments => ev.call function (ev.evalAll arguments)
  | .assign target value =>
    match target with
    | .name text => do
      let result ← ev.eval value
      -- Nothing is defined before this point, so a value that fails leaves the name alone.
      EvalM.define text result
      return result
    | _ => throw (.assignsTo target)

/-- The actions that evaluate expressions. -/
def evalAll (ev : Evaluator) : List Expr → List (EvalM Value)
  | [] => []
  | e :: es => ev.eval e :: ev.evalAll es

end

theorem evalAll_eq_map (ev : Evaluator) (es : List Expr) : ev.evalAll es = es.map ev.eval := by
  induction es with
  | nil => rfl
  | cons e es ih => rw [evalAll, ih, List.map_cons]

/-- An operator is applied to what its operands give, the right one in the scope that the left one
leaves. The first of the two that fails is the failure of the whole. -/
theorem run_eval_binary (ev : Evaluator) (op : BinaryOp) (left right : Expr) (scope : Scope) :
    (ev.eval (.binary op left right)).run scope =
      match (ev.eval left).run scope with
      | (.error error, after) => (.error error, after)
      | (.ok a, middle) =>
        match (ev.eval right).run middle with
        | (.error error, after) => (.error error, after)
        | (.ok b, after) => (op.apply a b, after) := by
  rw [eval, EvalM.run_bind]
  rcases (ev.eval left).run scope with ⟨error | a, middle⟩
  · rfl
  · dsimp only
    rw [EvalM.run_bind]
    rcases (ev.eval right).run middle with ⟨error | b, after⟩
    · rfl
    · rfl

/-- All that a call can do: it fails before it evaluates any argument, it integrates or
differentiates the first one, or it evaluates them all and applies the function. -/
theorem eval_call_cases (ev : Evaluator) (function : String) (arguments : List Expr)
    {motive : EvalM Value → Prop}
    (unknown : ev.library.get? function = none → motive (throw (.unknownFunction function)))
    (wrongArity : ∀ f, ev.library.get? function = some f → arguments.length ≠ f.arity →
      motive (throw (.wrongArity function f.arity arguments.length)))
    (integral : ∀ integrand lower upper, ev.library.get? function = some .integral →
      arguments = [integrand, lower, upper] → motive (do
        let a ← ev.eval lower
        let b ← ev.eval upper
        return .real (← EvalM.integral (ev.eval integrand) a.toFloat b.toFloat)))
    (derivative : ∀ f point, ev.library.get? function = some .derivative →
      arguments = [f, point] → motive (do
        let x ← ev.eval point
        return .real (← EvalM.derivative (ev.eval f) x.toFloat)))
    (ordinary : ∀ f, ev.library.get? function = some f → f ≠ .integral → f ≠ .derivative →
      motive (do
        let values ← EvalM.all (arguments.map ev.eval)
        EvalM.ofExcept (ev.library.call ev.mode function values))) :
    motive (ev.eval (.call function arguments)) := by
  have hwrong : ∀ f, ev.library.get? function = some f → arguments.length ≠ f.arity →
      motive (throw (.wrongArity function f.arity (arguments.map ev.eval).length)) := by
    rw [List.length_map]
    exact wrongArity
  rw [eval, evalAll_eq_map]
  unfold call
  split
  · next hget =>
    -- The arguments are taken apart as far as it takes to count them.
    rcases arguments with _ | ⟨integrand, _ | ⟨lower, _ | ⟨upper, _ | ⟨e, rest⟩⟩⟩⟩
    · exact hwrong _ hget (by simp [Function.arity])
    · exact hwrong _ hget (by simp [Function.arity])
    · exact hwrong _ hget (by simp [Function.arity])
    · exact integral integrand lower upper hget rfl
    · exact hwrong _ hget (by simp [Function.arity])
  · next hget =>
    rcases arguments with _ | ⟨f, _ | ⟨point, _ | ⟨e, rest⟩⟩⟩
    · exact hwrong _ hget (by simp [Function.arity])
    · exact hwrong _ hget (by simp [Function.arity])
    · exact derivative f point hget rfl
    · exact hwrong _ hget (by simp [Function.arity])
  · next f hintegral hderivative hget =>
    exact ordinary f hget hintegral hderivative
  · next hget => exact unknown hget

end Evaluator
end Reckoner
