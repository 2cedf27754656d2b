/-
The unit of angles, and how far it reaches.

The unit is a setting that stands beside every evaluation, those inside an integral or a derivative
included. It comes into play in one place: where a function of an angle is applied to its argument.
So without a call of such a function, two evaluators that differ in the unit do the same.

The induction carries an equation between actions, not between outcomes. What an integral or a
derivative does with the action that it samples is then the same as well: where it takes its samples
and how many of them may depend on the values found so far, but both runs are one and the same run.
-/
import Reckoner.Evaluation
import Reckoner.Proofs.Expr.Parts

set_option autoImplicit false

namespace Reckoner

/-! ## Functions of an angle -/

/-- Whether the argument of a function is an angle. -/
def Function.takesAngle : Function → Bool
  | .trig _ => true
  | .elementary _ | .factorial | .integral | .derivative => false

namespace Library

/-- Whether a name is the name of a function of an angle. -/
def takesAngle (library : Library) (name : String) : Bool :=
  (library.get? name).any Function.takesAngle

/-- The calculator has three functions of an angle. -/
theorem takesAngle_standard {name : String} (h : standard.takesAngle name = true) :
    name = "sin" ∨ name = "cos" ∨ name = "tan" := by
  have hnames : ∀ name ∈ standard.names, standard.takesAngle name = true →
      name = "sin" ∨ name = "cos" ∨ name = "tan" := by decide
  refine hnames name (mem_names_of_contains ?_) h
  obtain ⟨f, hget, -⟩ := (Option.any_eq_true _ _).mp h
  rw [contains, hget, Option.isSome_some]

/-- A function of anything else does not see the unit. -/
theorem call_eq_of_takesAngle {library : Library} {name : String}
    (h : library.takesAngle name = false) (mode mode' : AngleMode) (values : List Value) :
    library.call mode name values = library.call mode' name values := by
  cases hget : library.get? name with
  | none => simp only [call, hget]
  | some f =>
    simp only [takesAngle, hget, Option.any_some] at h
    simp only [call, hget]
    cases f with
    | trig g => exact Bool.noConfusion h
    | elementary _ | factorial | integral | derivative =>
      rcases values with _ | ⟨v, _ | ⟨w, rest⟩⟩ <;> rfl

end Library

/-! ## The evaluator -/

namespace Evaluator

open Reckoner.Expr (Part)

variable {library : Library} (mode mode' : AngleMode)

/-- Only an ordinary function is told the unit. -/
theorem call_eq_of_takesAngle {function : String} (h : library.takesAngle function = false)
    (actions : List (EvalM Value)) :
    (⟨library, mode⟩ : Evaluator).call function actions =
      (⟨library, mode'⟩ : Evaluator).call function actions := by
  have hordinary : library.call mode function = library.call mode' function :=
    funext (Library.call_eq_of_takesAngle h mode mode')
  unfold call
  dsimp only
  rw [hordinary]

/-- Evaluation is the same action in either unit, if no part is a call of a function of an angle. -/
theorem eval_eq_of_takesAngle {e : Expr}
    (h : ∀ function arguments, Part (.call function arguments) e →
      library.takesAngle function = false) :
    (⟨library, mode⟩ : Evaluator).eval e = (⟨library, mode'⟩ : Evaluator).eval e := by
  induction e with
  | numeral text => rfl
  | name text => rfl
  | unary op operand ih =>
    have hoperand := ih fun function arguments hpart => h function arguments (.operand op hpart)
    rw [eval, eval, hoperand]
  | binary op left right ihl ihr =>
    have hleft := ihl fun function arguments hpart => h function arguments (.left op right hpart)
    have hright := ihr fun function arguments hpart => h function arguments (.right op left hpart)
    rw [eval, eval, hleft, hright]
  | call function arguments ih =>
    have harguments : ∀ e ∈ arguments, (⟨library, mode⟩ : Evaluator).eval e =
        (⟨library, mode'⟩ : Evaluator).eval e := by
      intro e he
      exact ih e he fun inner es hpart => h inner es (.argument function he hpart)
    rw [eval, eval, evalAll_eq_map, evalAll_eq_map, List.map_congr_left harguments]
    exact call_eq_of_takesAngle mode mode' (h function arguments .refl) _
  | assign target value _ ih =>
    have hvalue := ih fun function arguments hpart => h function arguments (.value target hpart)
    cases target with
    | name text => rw [eval, eval, hvalue]
    | numeral _ | unary _ _ | binary _ _ _ | call _ _ | assign _ _ => rfl

/-- **The unit of angles only reaches trigonometry.** An expression in which no sine, cosine or
tangent is called, not even in the first argument of an integral or a derivative, has the same value
or the same error in degrees as in radians, and leaves the same scope. -/
theorem eval_degrees_eq_radians (e : Expr)
    (h : ∀ function arguments, Part (.call function arguments) e →
      function ≠ "sin" ∧ function ≠ "cos" ∧ function ≠ "tan") (scope : Scope) :
    ((⟨.standard, .degrees⟩ : Evaluator).eval e).run scope =
      ((⟨.standard, .radians⟩ : Evaluator).eval e).run scope := by
  rw [eval_eq_of_takesAngle .degrees .radians fun function arguments hpart => ?_]
  obtain ⟨hsin, hcos, htan⟩ := h function arguments hpart
  refine eq_false_of_ne_true fun hangle => ?_
  rcases Library.takesAngle_standard hangle with rfl | rfl | rfl
  · exact hsin rfl
  · exact hcos rfl
  · exact htan rfl

/-- The derivative of an integral whose upper bound is the bound name, added to a factorial. The name
`sin` stands in it, but it is not called. -/
theorem eval_degrees_eq_radians_integral :
    let integral : Expr := .call "integral" [.call "exp" [.name "x"], .numeral "0", .name "x"]
    let e : Expr := .binary .add (.call "deriv" [integral, .name "sin"])
      (.call "fact" [.name "sin"])
    let scope := Scope.ofList [("sin", .whole 3)]
    (∀ function arguments, Part (.call function arguments) e →
        function ≠ "sin" ∧ function ≠ "cos" ∧ function ≠ "tan") ∧
      ((⟨.standard, .degrees⟩ : Evaluator).eval e).run scope =
        ((⟨.standard, .radians⟩ : Evaluator).eval e).run scope := by
  intro integral e scope
  have hcalls : ∀ function arguments, Part (.call function arguments) e →
      function ≠ "sin" ∧ function ≠ "cos" ∧ function ≠ "tan" := by
    intro function arguments hpart
    simp only [e, integral, Expr.part_binary, Expr.part_call, Expr.part_name, Expr.part_numeral,
      List.mem_cons, List.not_mem_nil, exists_eq_or_imp, exists_eq_left, Expr.call.injEq, reduceCtorEq,
      or_false, false_or] at hpart
    rcases hpart with (⟨rfl, -⟩ | ⟨rfl, -⟩ | ⟨rfl, -⟩) | ⟨rfl, -⟩ <;> decide
  exact ⟨hcalls, eval_degrees_eq_radians e hcalls scope⟩

end Evaluator
end Reckoner
