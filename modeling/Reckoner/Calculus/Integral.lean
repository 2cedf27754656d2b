/-
Integration by Simpson's rule on ever finer intervals.

A first estimate over the whole interval comes from ten pieces of equal width. Then the interval is
halved, and each half estimated from its ends and its middle. If the two halves together agree with
the estimate they replace, within fifteen times the tolerance, a fifteenth of the difference is
added as a correction and the matter is closed; otherwise each half is treated the same way, with
half the tolerance.

Halving goes at most twenty levels deep. Where that is not enough, the estimate at hand is
returned, and from then on every half still waiting returns the estimate it was given, without
another sample: an approximate answer is better than none. This is the second component that
`refine` passes along and returns, true as soon as one branch has been cut short.

The integrand is sampled by an action, which may fail and may have effects. The order of samples is
part of the result.
-/
import Reckoner.Calculus.Scalar

set_option autoImplicit false

namespace Reckoner
namespace Integral

variable {α : Type} [Add α] [Sub α] [Mul α] [Div α] [Scalar α]
variable {m : Type → Type} [Monad m]

/-- The number of pieces of the first estimate. -/
def pieces : Nat := 10

/-- The number of levels of halving. -/
def levels : Nat := 20

/-- The tolerance for the whole interval. -/
def tolerance : α := Scalar.ofNat 1 / Scalar.ofNat 1000000

/-- Simpson's estimate of an interval from its ends and its middle. -/
@[specialize] def panel (f : α → m α) (a b : α) : m α := do
  let atStart ← f a
  let atMiddle ← f ((a + b) / Scalar.ofNat 2)
  let atEnd ← f b
  return (b - a) / Scalar.ofNat 6 * (atStart + Scalar.ofNat 4 * atMiddle + atEnd)

/-- The weight of the `i`-th point between the pieces: the points weigh 4 and 2 in turn. -/
def weight (i : Nat) : α :=
  if i % 2 = 0 then Scalar.ofNat 2 else Scalar.ofNat 4

/-- Simpson's estimate of an interval from `pieces` pieces. -/
@[specialize] def composite (f : α → m α) (a b : α) : m α := do
  let width := (b - a) / Scalar.ofNat pieces
  let atStart ← f a
  let atEnd ← f b
  let sum ← (List.range' 1 (pieces - 1)).foldlM (fun (sum : α) (i : Nat) => do
    let y ← f (a + Scalar.ofNat i * width)
    return sum + weight i * y) (atStart + atEnd)
  return width / Scalar.ofNat 3 * sum

/-- Refines an estimate `whole` of the interval from `a` to `b` with so many levels left. -/
@[specialize] def refine (f : α → m α) :
    Nat → (a b eps whole : α) → (cut : Bool) → m (α × Bool)
  | 0, _, _, _, whole, _ => pure (whole, true)
  | levels + 1, a, b, eps, whole, cut =>
    if cut then pure (whole, true)
    else do
      let c := (a + b) / Scalar.ofNat 2
      let left ← panel f a c
      let right ← panel f c b
      let total := left + right
      if Scalar.atMost (Scalar.abs (total - whole)) (Scalar.ofNat 15 * eps) then
        return (total + (total - whole) / Scalar.ofNat 15, false)
      else
        let (l, cut) ← refine f levels a c (eps / Scalar.ofNat 2) left false
        -- A cut in the left half is passed on: the right half then takes no sample at all.
        let (r, cut) ← refine f levels c b (eps / Scalar.ofNat 2) right cut
        return (l + r, cut)

end Integral

/-- The integral of `f` from `a` to `b`. -/
@[specialize] def integrate {α : Type} [Add α] [Sub α] [Mul α] [Div α] [Scalar α]
    {m : Type → Type} [Monad m] (f : α → m α) (a b : α) : m α := do
  let first ← Integral.composite f a b
  let (result, _) ← Integral.refine f Integral.levels a b Integral.tolerance first false
  return result

end Reckoner
