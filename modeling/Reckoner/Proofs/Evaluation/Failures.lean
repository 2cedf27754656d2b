/-
The failures of evaluation.

Every error of evaluation names what is at fault, and what it names stands in the expression: the
numeral that does not read, the call with the wrong number of arguments, the assignment to something
other than a name. So the errors an expression can have are read off its parts. One error is never
seen here. Integration and differentiation refuse numbers, but a call of them is never given any.

An action fails within a set of errors if it has no others, in whatever scope it starts. Samples fail
like the action that is sampled, so an integral needs nothing beyond what it needs for one sample.
-/
import Reckoner.Evaluation
import Reckoner.Proofs.Calculus.Relation
import Reckoner.Proofs.Expr.Parts

set_option autoImplicit false

namespace Reckoner

/-! ## The errors that an expression can have -/

namespace Expr

/-- Whether an expression can fail with this error: the part that the error names is there, and has
the fault that the error tells of. -/
def CanFail (library : Library) (e : Expr) : EvalError → Prop
  | .badNumeral text => Part (.numeral text) e ∧ Value.ofNumeral? text = none
  | .unknownName text => Part (.name text) e ∧ Scope.builtIn? text = none
  | .unknownFunction function =>
    ∃ arguments, Part (.call function arguments) e ∧ library.get? function = none
  | .wrongArity function expected received =>
    ∃ arguments f, Part (.call function arguments) e ∧ library.get? function = some f ∧
      expected = f.arity ∧ received = arguments.length ∧ received ≠ expected
  | .divisionByZero => ∃ op left right, Part (.binary op left right) e ∧ (op = .div ∨ op = .rem)
  | .assignsTo target => ∃ value, Part (.assign target value) e ∧ ∀ text, target ≠ .name text
  | .needsExpression _ => False
  | .factorial _ =>
    ∃ function arguments, Part (.call function arguments) e ∧
      library.get? function = some .factorial

/-- What a part can fail with, the whole can fail with. -/
theorem CanFail.of_part {library : Library} {part e : Expr} {error : EvalError}
    (h : part.CanFail library error) (hpart : Part part e) : e.CanFail library error := by
  cases error with
  | badNumeral text => exact ⟨h.1.trans hpart, h.2⟩
  | unknownName text => exact ⟨h.1.trans hpart, h.2⟩
  | unknownFunction function =>
    obtain ⟨arguments, hcall, hget⟩ := h
    exact ⟨arguments, hcall.trans hpart, hget⟩
  | wrongArity function expected received =>
    obtain ⟨arguments, f, hcall, hfault⟩ := h
    exact ⟨arguments, f, hcall.trans hpart, hfault⟩
  | divisionByZero =>
    obtain ⟨op, left, right, hbinary, hop⟩ := h
    exact ⟨op, left, right, hbinary.trans hpart, hop⟩
  | assignsTo target =>
    obtain ⟨value, hassign, htarget⟩ := h
    exact ⟨value, hassign.trans hpart, htarget⟩
  | needsExpression function => exact h
  | factorial fault =>
    obtain ⟨function, arguments, hcall, hget⟩ := h
    exact ⟨function, arguments, hcall.trans hpart, hget⟩

end Expr

/-! ## Operators and functions -/

namespace BinaryOp

variable {op : BinaryOp} {error : EvalError}

theorem onReals_eq_error {x y : Float} (h : op.onReals x y = .error error) :
    error = .divisionByZero ∧ (op = .div ∨ op = .rem) := by
  cases op with
  | add | sub | mul | pow => exact absurd h (by rintro ⟨⟩)
  | div | rem =>
    by_cases hy : (y == 0) = true
    · rw [onReals, if_pos hy] at h
      exact ⟨(Except.error.inj h).symm, by simp⟩
    · rw [onReals, if_neg hy] at h
      exact absurd h (by rintro ⟨⟩)

theorem onWholes_eq_error {x y : Int} (h : op.onWholes x y = .error error) :
    error = .divisionByZero ∧ (op = .div ∨ op = .rem) := by
  cases op with
  | add | sub | mul => exact absurd h (by rintro ⟨⟩)
  | div => exact onReals_eq_error (eq_error_of_map h)
  | rem =>
    by_cases hy : y = 0
    · rw [onWholes, if_pos hy] at h
      exact ⟨(Except.error.inj h).symm, Or.inr rfl⟩
    · rw [onWholes, if_neg hy] at h
      exact absurd h (by rintro ⟨⟩)
  | pow =>
    by_cases hy : y < 0
    · rw [onWholes, if_pos hy] at h
      exact onReals_eq_error (eq_error_of_map h)
    · rw [onWholes, if_neg hy] at h
      exact absurd h (by rintro ⟨⟩)

/-- Only a quotient and a remainder can fail. -/
theorem apply_eq_error {a b : Value} (h : op.apply a b = .error error) :
    error = .divisionByZero ∧ (op = .div ∨ op = .rem) := by
  unfold apply at h
  split at h
  · exact onWholes_eq_error h
  · exact onReals_eq_error (eq_error_of_map h)

end BinaryOp

/-- A function of numbers fails only on their count, or as a factorial. -/
theorem Library.call_eq_error {library : Library} {mode : AngleMode} {name : String}
    {values : List Value} {f : Function} {error : EvalError} (hget : library.get? name = some f)
    (hintegral : f ≠ .integral) (hderivative : f ≠ .derivative)
    (h : library.call mode name values = .error error) :
    (error = .wrongArity name f.arity values.length ∧ values.length ≠ f.arity) ∨
      (f = .factorial ∧ ∃ fault, error = .factorial fault) := by
  unfold call at h
  rw [hget] at h
  dsimp only at h
  by_cases harity : values.length = f.arity
  · rw [Function.checkArity, if_pos harity] at h
    obtain ⟨v, rfl⟩ : ∃ v, values = [v] := by
      refine List.length_eq_one_iff.mp (harity.trans ?_)
      cases f with
      | integral => exact absurd rfl hintegral
      | derivative => exact absurd rfl hderivative
      | elementary _ | trig _ | factorial => rfl
    cases f with
    | integral => exact absurd rfl hintegral
    | derivative => exact absurd rfl hderivative
    | elementary _ | trig _ => exact absurd h (by rintro ⟨⟩)
    | factorial =>
      replace h : ((factorialOf v).map Value.whole).mapError EvalError.factorial = .error error := h
      cases hfactorial : factorialOf v with
      | ok n =>
        rw [hfactorial] at h
        exact absurd h (by rintro ⟨⟩)
      | error fault =>
        rw [hfactorial] at h
        exact Or.inr ⟨rfl, fault, (Except.error.inj h).symm⟩
  · rw [Function.checkArity, if_neg harity] at h
    exact Or.inl ⟨(Except.error.inj h).symm, harity⟩

/-! ## Actions that fail within a set of errors -/

/-- In whatever scope an action starts, it has no other errors than these. -/
def EvalM.FailsWithin {α : Type} (errors : EvalError → Prop) (action : EvalM α) : Prop :=
  ∀ (scope : Scope) (error : EvalError), (action.run scope).1 = .error error → errors error

namespace EvalM

variable {α β : Type} {errors more : EvalError → Prop}

/-- All actions of a list have been run, each for one value. -/
theorem length_of_run_all {actions : List (EvalM α)} {values : List α} {scope after : Scope}
    (h : (EvalM.all actions).run scope = (.ok values, after)) :
    values.length = actions.length := by
  induction actions generalizing values scope after with
  | nil =>
    obtain ⟨hvalues, -⟩ := Prod.mk.inj h
    obtain rfl := Except.ok.inj hvalues
    rfl
  | cons action rest ih =>
    rw [EvalM.all] at h
    obtain ⟨value, middle, -, hrest⟩ := run_bind_eq_ok h
    obtain ⟨values', after', hvalues, hcons⟩ := run_bind_eq_ok hrest
    obtain rfl := Except.ok.inj (Prod.mk.inj hcons).1
    rw [List.length_cons, List.length_cons, ih hvalues]

namespace FailsWithin

theorem pure (errors : EvalError → Prop) (a : α) :
    FailsWithin errors (Pure.pure a : EvalM α) :=
  fun _ _ h => absurd h (by rintro ⟨⟩)

theorem ofExcept {outcome : Except EvalError α}
    (h : ∀ error, outcome = .error error → errors error) :
    FailsWithin errors (EvalM.ofExcept outcome) :=
  fun _ error herror => h error herror

/-- A definition does not fail. -/
theorem define (errors : EvalError → Prop) (name : String) (value : Value) :
    FailsWithin errors (EvalM.define name value) :=
  fun _ _ h => absurd h (by rintro ⟨⟩)

theorem throw {error : EvalError} (h : errors error) :
    FailsWithin errors (MonadExcept.throw error : EvalM α) := by
  intro scope error' herror
  obtain rfl : error = error' := Except.error.inj herror
  exact h

theorem mono {action : EvalM α} (h : FailsWithin errors action)
    (hle : ∀ error, errors error → more error) : FailsWithin more action :=
  fun scope error herror => hle error (h scope error herror)

/-- One action after the other. The second one need only be looked at for values that the first
one can have. -/
theorem bind {action : EvalM α} {next : α → EvalM β} (ha : FailsWithin errors action)
    (hn : ∀ scope a after, action.run scope = (.ok a, after) → FailsWithin errors (next a)) :
    FailsWithin errors (action >>= next) := by
  intro scope error h
  rw [run_bind] at h
  rcases haction : action.run scope with ⟨error' | a, after⟩
  · have hfailed := ha scope error'
    rw [haction] at h hfailed
    obtain rfl := Except.error.inj h
    exact hfailed rfl
  · rw [haction] at h
    exact hn scope a after haction after error h

theorem all {actions : List (EvalM α)} (h : ∀ action ∈ actions, FailsWithin errors action) :
    FailsWithin errors (EvalM.all actions) := by
  induction actions with
  | nil => exact pure errors []
  | cons action rest ih =>
    obtain ⟨haction, hrest⟩ := List.forall_mem_cons.mp h
    exact bind haction fun _ _ _ _ => bind (ih hrest) fun _ _ _ _ => pure errors _

/-! ### Integration and differentiation -/

/-- Failing within `errors`, as a relation that ignores its second computation. -/
def relation (errors : EvalError → Prop) : MonadRelation EvalM EvalM where
  Rel action _ := FailsWithin errors action
  pure := pure errors
  bind h hn := bind h fun _ a _ _ => hn a

theorem sample {action : EvalM Value} (h : FailsWithin errors action) (x : Float) :
    FailsWithin errors (EvalM.sample action x) :=
  bind (define errors boundName (.real x)) fun _ _ _ _ => bind h fun _ _ _ _ => pure errors _

/-- Putting the bound name back does not fail. -/
theorem bound {action : EvalM α} (h : FailsWithin errors action) :
    FailsWithin errors (EvalM.bound action) :=
  fun scope error herror => h (scope.erase boundName) error herror

theorem integral {integrand : EvalM Value} (h : FailsWithin errors integrand) (a b : Float) :
    FailsWithin errors (EvalM.integral integrand a b) :=
  bound ((relation errors).integrate (g := integrand.sample) h.sample a b)

theorem derivative {f : EvalM Value} (h : FailsWithin errors f) (x : Float) :
    FailsWithin errors (EvalM.derivative f x) :=
  bound ((relation errors).differentiate (g := f.sample) h.sample x)

end FailsWithin
end EvalM

/-! ## The evaluator -/

namespace Evaluator

open EvalM (FailsWithin)
open Reckoner.Expr (Part)

theorem eval_call_failsWithin (ev : Evaluator) (function : String) {arguments : List Expr}
    (h : ∀ e ∈ arguments, FailsWithin (e.CanFail ev.library) (ev.eval e)) :
    FailsWithin ((Expr.call function arguments).CanFail ev.library)
      (ev.eval (.call function arguments)) := by
  have harguments : ∀ e ∈ arguments,
      FailsWithin ((Expr.call function arguments).CanFail ev.library) (ev.eval e) :=
    fun e he => (h e he).mono fun error herror => herror.of_part (.argument function he .refl)
  refine ev.eval_call_cases function arguments ?unknown ?wrongArity ?integral ?derivative ?ordinary
  case unknown =>
    intro hget
    exact .throw ⟨arguments, .refl, hget⟩
  case wrongArity =>
    intro f hget hne
    exact .throw ⟨arguments, f, .refl, hget, rfl, rfl, hne⟩
  case integral =>
    rintro integrand lower upper - rfl
    refine .bind (harguments lower (by simp)) fun _ a _ _ => ?_
    refine .bind (harguments upper (by simp)) fun _ b _ _ => ?_
    exact .bind (.integral (harguments integrand (by simp)) _ _) fun _ _ _ _ => .pure _ _
  case derivative =>
    rintro f point - rfl
    refine .bind (harguments point (by simp)) fun _ x _ _ => ?_
    exact .bind (.derivative (harguments f (by simp)) _) fun _ _ _ _ => .pure _ _
  case ordinary =>
    intro f hget hintegral hderivative
    refine .bind (.all fun action haction => ?_) fun scope values after hvalues => ?_
    · obtain ⟨e, he, rfl⟩ := List.mem_map.mp haction
      exact harguments e he
    · -- There are as many values as arguments, so the count in the error is that of the call.
      have hlength : values.length = arguments.length := by
        rw [EvalM.length_of_run_all hvalues, List.length_map]
      refine .ofExcept fun error herror => ?_
      rcases Library.call_eq_error hget hintegral hderivative herror with
        ⟨rfl, hne⟩ | ⟨rfl, fault, rfl⟩
      · exact ⟨arguments, f, .refl, hget, rfl, hlength, hne⟩
      · exact ⟨function, arguments, .refl, hget⟩

/-- Evaluation fails only with the errors that are read off the expression. -/
theorem eval_failsWithin (ev : Evaluator) (e : Expr) :
    FailsWithin (e.CanFail ev.library) (ev.eval e) := by
  induction e with
  | numeral text =>
    unfold eval
    split
    · exact .pure _ _
    · next hnone => exact .throw ⟨.refl, hnone⟩
  | name text =>
    intro scope error herror
    replace herror : scope.read text = .error error := herror
    unfold Scope.read at herror
    split at herror
    · exact absurd herror (by rintro ⟨⟩)
    · next hnone =>
      obtain rfl := Except.error.inj herror
      exact ⟨.refl, (Option.or_eq_none_iff.mp hnone).2⟩
  | unary op operand ih =>
    rw [eval]
    refine .bind (ih.mono fun error herror => ?_) fun _ _ _ _ => .pure _ _
    exact herror.of_part (.operand op .refl)
  | binary op left right ihl ihr =>
    rw [eval]
    refine .bind (ihl.mono fun error herror => ?_) fun _ a _ _ => ?_
    · exact herror.of_part (.left op right .refl)
    refine .bind (ihr.mono fun error herror => ?_) fun _ b _ _ => ?_
    · exact herror.of_part (.right op left .refl)
    refine .ofExcept fun error herror => ?_
    obtain ⟨rfl, hop⟩ := BinaryOp.apply_eq_error herror
    exact ⟨op, left, right, .refl, hop⟩
  | call function arguments ih => exact ev.eval_call_failsWithin function ih
  | assign target value _ ih =>
    cases target with
    | name text =>
      rw [eval]
      refine .bind (ih.mono fun error herror => ?_) fun _ result _ _ => ?_
      · exact herror.of_part (.value _ .refl)
      · exact .bind (.define _ text result) fun _ _ _ _ => .pure _ _
    | numeral _ | unary _ _ | binary _ _ _ | call _ _ | assign _ _ =>
      exact .throw ⟨value, .refl, by rintro text ⟨⟩⟩

end Evaluator
end Reckoner
