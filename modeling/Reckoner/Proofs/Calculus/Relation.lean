/-
What holds of every sample holds of the whole integral, and of the whole derivative.

Both methods see the function only through its samples: they take one, go on with its value, and
end with a number. How many samples an integral takes, and where, depends on the values found so
far. So no bound on the number of steps helps; what does is that every run is built from samples
by `pure` and `>>=` alone. A relation between computations that those two keep, and that relates
the samples of two functions at each place, relates the two integrals and the two derivatives.

The two monads and the two functions may be the same. A property of one computation is the case of
a relation that ignores its second argument.
-/
import Reckoner.Calculus.Derivative
import Reckoner.Calculus.Integral

set_option autoImplicit false

namespace Reckoner

/-- A relation between the computations of two monads that `pure` and `>>=` keep. -/
structure MonadRelation (m n : Type → Type) [Monad m] [Monad n] where
  /-- Whether two computations are related. -/
  Rel : {α : Type} → m α → n α → Prop
  pure : ∀ {α : Type} (a : α), Rel (Pure.pure a) (Pure.pure a)
  bind : ∀ {α β : Type} {x : m α} {y : n α} {f : α → m β} {g : α → n β},
    Rel x y → (∀ a, Rel (f a) (g a)) → Rel (x >>= f) (y >>= g)

namespace MonadRelation

variable {m n : Type → Type} [Monad m] [Monad n] (R : MonadRelation m n)

/-- Two loops over one list are related if their rounds are. -/
theorem foldlM {α β : Type} {f : β → α → m β} {g : β → α → n β}
    (h : ∀ b a, R.Rel (f b a) (g b a)) (l : List α) (b : β) :
    R.Rel (l.foldlM f b) (l.foldlM g b) := by
  induction l generalizing b with
  | nil => exact R.pure b
  | cons a l ih => exact R.bind (h b a) ih

variable {α : Type} [Add α] [Sub α] [Mul α] [Div α] [Scalar α] {f : α → m α} {g : α → n α}

theorem panel (h : ∀ x, R.Rel (f x) (g x)) (a b : α) :
    R.Rel (Integral.panel f a b) (Integral.panel g a b) :=
  R.bind (h _) fun _ => R.bind (h _) fun _ => R.bind (h _) fun _ => R.pure _

theorem composite (h : ∀ x, R.Rel (f x) (g x)) (a b : α) :
    R.Rel (Integral.composite f a b) (Integral.composite g a b) := by
  refine R.bind (h _) fun atStart => R.bind (h _) fun atEnd => ?_
  refine R.bind (R.foldlM (fun sum i => ?_) _ _) fun _ => R.pure _
  exact R.bind (h _) fun _ => R.pure _

/-- The induction is on the levels left. Both runs see the same numbers, so they accept the same
estimates and halve the same intervals. -/
theorem refine (h : ∀ x, R.Rel (f x) (g x)) (levels : Nat) (a b eps whole : α) (cut : Bool) :
    R.Rel (Integral.refine f levels a b eps whole cut)
      (Integral.refine g levels a b eps whole cut) := by
  induction levels generalizing a b eps whole cut with
  | zero => exact R.pure _
  | succ levels ih =>
    unfold Integral.refine
    cases cut with
    | true => exact R.pure _
    | false =>
      refine R.bind (R.panel h _ _) fun left => R.bind (R.panel h _ _) fun right => ?_
      dsimp only
      split
      · exact R.pure _
      · refine R.bind (ih _ _ _ _ _) ?_
        rintro ⟨l, cut⟩
        refine R.bind (ih _ _ _ _ _) ?_
        rintro ⟨r, cut⟩
        exact R.pure _

/-- Functions with related samples have related integrals. -/
theorem integrate (h : ∀ x, R.Rel (f x) (g x)) (a b : α) :
    R.Rel (Reckoner.integrate f a b) (Reckoner.integrate g a b) := by
  refine R.bind (R.composite h a b) fun first => R.bind (R.refine h _ _ _ _ _ _) ?_
  rintro ⟨result, cut⟩
  exact R.pure result

/-- Functions with related samples have related derivatives. -/
theorem differentiate [Neg α] (h : ∀ x, R.Rel (f x) (g x)) (x : α) :
    R.Rel (Reckoner.differentiate f x) (Reckoner.differentiate g x) :=
  R.bind (h _) fun _ => R.bind (h _) fun _ => R.bind (h _) fun _ => R.bind (h _) fun _ => R.pure _

end MonadRelation
end Reckoner
