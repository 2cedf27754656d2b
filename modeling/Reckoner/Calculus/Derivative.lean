/-
Differentiation by the five-point formula.

Four samples, two on either side of the point and none at it, are weighted so that the error of
the difference quotient vanishes up to the fourth power of the step.
-/
import Reckoner.Calculus.Scalar

set_option autoImplicit false

namespace Reckoner

variable {α : Type} [Add α] [Sub α] [Mul α] [Div α] [Neg α] [Scalar α]
variable {m : Type → Type} [Monad m]

/-- The distance between neighbouring samples. -/
def derivativeStep : α := Scalar.ofNat 1 / Scalar.ofNat 1000

/-- The derivative of `f` at `x`. The samples are taken from right to left. -/
@[specialize] def differentiate (f : α → m α) (x : α) : m α := do
  let h : α := derivativeStep
  let right₂ ← f (x + Scalar.ofNat 2 * h)
  let right₁ ← f (x + h)
  let left₁ ← f (x - h)
  let left₂ ← f (x - Scalar.ofNat 2 * h)
  return (-right₂ + Scalar.ofNat 8 * right₁ - Scalar.ofNat 8 * left₁ + left₂) /
    (Scalar.ofNat 12 * h)

end Reckoner
