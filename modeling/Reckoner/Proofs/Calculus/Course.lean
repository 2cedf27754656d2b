/-
The course of an integral: its samples and its refinements, in the order in which they happen.

An integral is computed a second time with a list at hand, to which every evaluation of the integrand
is added with its outcome, every refinement where it begins and where it ends, and every place where
refining is cut. Here the depth of a refinement is counted from 1 upwards. Apart from the list it is
the same computation: the outcome, and the state that the integrand leaves behind, are those of the
integral itself, since both computations are built from related steps by `pure` and `>>=`.

The integrand may do what it likes with a state of its own, and may fail wherever it likes.
-/
import Reckoner.Evaluation
import Reckoner.Proofs.Calculus.Relation

set_option autoImplicit false

namespace Reckoner
namespace Integral

/-- What happens while an integral is computed. -/
inductive Event (ε α : Type) where
  /-- The integrand is evaluated at `x`. -/
  | sample (x : α) (outcome : Except ε α)
  /-- The refinement of an estimate begins. -/
  | enter (depth : Nat) (whole : α)
  /-- Refining is cut from here on. -/
  | cut
  /-- A refinement ends. -/
  | leave (depth : Nat) (result : α)

variable {ε σ α β γ : Type}

/-- Whether the integrand is evaluated. -/
def Event.isSample : Event ε α → Bool
  | .sample _ _ => true
  | .enter _ _ | .cut | .leave _ _ => false

/-- The computations of an integral with the list of what has happened. -/
abbrev Recorder (ε σ α : Type) := ExceptT ε (StateM (σ × List (Event ε α)))

/-- Adds to the list. -/
def record (event : Event ε α) : Recorder ε σ α Unit :=
  modify fun (s, events) => (s, events ++ [event])

/-- Evaluates the integrand and adds that to the list, also if it fails. -/
def observed (f : α → ExceptT ε (StateM σ) α) (x : α) : Recorder ε σ α α :=
  ExceptT.mk fun (s, events) =>
    let (outcome, after) := (f x).run s
    (outcome, after, events ++ [.sample x outcome])

/-- A refinement that returns the estimate it was given. -/
def cutShort (depth : Nat) (whole : α) : Recorder ε σ α (α × Bool) := do
  record (.enter depth whole)
  record .cut
  record (.leave depth whole)
  return (whole, true)

section Recorded

variable [Add α] [Sub α] [Mul α] [Div α] [Scalar α]

/-- `refine` with the list. The depth grows while the levels left shrink. -/
def refineRecorded (f : α → Recorder ε σ α α) :
    Nat → (depth : Nat) → (a b eps whole : α) → (cut : Bool) → Recorder ε σ α (α × Bool)
  | 0, depth, _, _, _, whole, _ => cutShort depth whole
  | levels + 1, depth, a, b, eps, whole, cut =>
    if cut then cutShort depth whole
    else do
      record (.enter depth whole)
      let c := (a + b) / Scalar.ofNat 2
      let left ← panel f a c
      let right ← panel f c b
      let total := left + right
      if Scalar.atMost (Scalar.abs (total - whole)) (Scalar.ofNat 15 * eps) then
        let result := total + (total - whole) / Scalar.ofNat 15
        record (.leave depth result)
        return (result, false)
      else
        let (l, cut) ← refineRecorded f levels (depth + 1) a c (eps / Scalar.ofNat 2) left false
        let (r, cut) ← refineRecorded f levels (depth + 1) c b (eps / Scalar.ofNat 2) right cut
        record (.leave depth (l + r))
        return (l + r, cut)

/-- `integrate` with the list. The first refinement has depth 1. -/
def integrateRecorded (f : α → ExceptT ε (StateM σ) α) (a b : α) : Recorder ε σ α α := do
  let first ← composite (observed f) a b
  let (result, _) ← refineRecorded (observed f) levels 1 a b tolerance first false
  return result

/-- An integral from its first to its last sample. -/
structure Course (ε σ α : Type) where
  outcome : Except ε α
  /-- The state that the integrand leaves behind. -/
  state : σ
  events : List (Event ε α)

/-- The course of the integral of `f` from `a` to `b`. -/
def course (f : α → ExceptT ε (StateM σ) α) (a b : α) (s : σ) : Course ε σ α :=
  let (outcome, state, events) := (integrateRecorded f a b).run (s, [])
  { outcome, state, events }

end Recorded

/-! ## Without the list -/

/-- A computation with the list is related to the one that it is without it. -/
def withoutList : MonadRelation (Recorder ε σ α) (ExceptT ε (StateM σ)) where
  Rel x y := ∀ s events, ((x.run (s, events)).1, (x.run (s, events)).2.1) = y.run s
  pure b s events := rfl
  bind {β γ x y f g} hx hf s events := by
    rw [EvalM.run_bind, EvalM.run_bind, ← hx s events]
    rcases x.run (s, events) with ⟨error | b, after, events'⟩
    · rfl
    · exact hf b after events'

theorem withoutList_record {event : Event ε α} {x : Unit → Recorder ε σ α β}
    {y : ExceptT ε (StateM σ) β} (h : withoutList.Rel (x ()) y) :
    withoutList.Rel (record event >>= x) y := by
  intro s events
  rw [EvalM.run_bind]
  exact h s (events ++ [event])

theorem withoutList_observed (f : α → ExceptT ε (StateM σ) α) (x : α) :
    withoutList.Rel (observed f x) (f x) :=
  fun _ _ => rfl

theorem withoutList_cutShort (depth : Nat) (whole : α) :
    withoutList.Rel (cutShort depth whole : Recorder ε σ α (α × Bool)) (pure (whole, true)) :=
  withoutList_record (withoutList_record (withoutList_record (withoutList.pure _)))

variable [Add α] [Sub α] [Mul α] [Div α] [Scalar α]

theorem withoutList_refine (f : α → ExceptT ε (StateM σ) α) (levels depth : Nat)
    (a b eps whole : α) (cut : Bool) :
    withoutList.Rel (refineRecorded (observed f) levels depth a b eps whole cut)
      (refine f levels a b eps whole cut) := by
  induction levels generalizing depth a b eps whole cut with
  | zero => exact withoutList_cutShort depth whole
  | succ levels ih =>
    have hpanel := withoutList.panel (withoutList_observed f)
    rw [refineRecorded, refine]
    by_cases hcut : cut = true
    · rw [if_pos hcut, if_pos hcut]
      exact withoutList_cutShort depth whole
    · rw [if_neg hcut, if_neg hcut]
      apply withoutList_record
      refine withoutList.bind (hpanel _ _) fun left => ?_
      refine withoutList.bind (hpanel _ _) fun right => ?_
      dsimp only
      split
      · exact withoutList_record (withoutList.pure _)
      · refine withoutList.bind (ih _ _ _ _ _ _) ?_
        rintro ⟨l, cut⟩
        refine withoutList.bind (ih _ _ _ _ _ _) ?_
        rintro ⟨r, cut⟩
        exact withoutList_record (withoutList.pure _)

/-- The course of an integral has its outcome, and leaves its state. -/
theorem course_eq (f : α → ExceptT ε (StateM σ) α) (a b : α) (s : σ) :
    ((course f a b s).outcome, (course f a b s).state) = (integrate f a b).run s := by
  have hrel : withoutList.Rel (integrateRecorded f a b) (integrate f a b) := by
    refine withoutList.bind (withoutList.composite (withoutList_observed f) a b) fun first => ?_
    refine withoutList.bind (withoutList_refine f _ _ _ _ _ _ _) ?_
    rintro ⟨result, cut⟩
    exact withoutList.pure result
  exact hrel s []

end Integral
end Reckoner
