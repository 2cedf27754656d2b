/-
Where integration and differentiation are exact.

Both methods are formulas over any numbers. Over the rationals nothing is rounded, and what the weights
and the places of the samples are good for can be said exactly: Simpson's rule gives the integral of
every polynomial of degree 3, on a single panel as well as on ten pieces, and the five-point formula
gives the derivative of every polynomial of degree 4.

So the first estimate of an integral is the integral itself, and the two halves together agree with it.
Their difference is zero, which is within any tolerance, and so is the correction. The integral is
accepted where refining begins, and what happens until then is samples and nothing else. No order is
assumed of the bounds.
-/
import Mathlib
import Reckoner.Proofs.Calculus.Course

set_option autoImplicit false

namespace Reckoner

open Polynomial

theorem scalar_ofNat_rat (n : Nat) : (Scalar.ofNat n : ℚ) = n :=
  Rat.mkRat_one n

/-! ## Polynomials by their coefficients -/

section Coefficients

variable {p : ℚ[X]}

/-- The integral of a polynomial, by its coefficients. -/
def definiteIntegral (p : ℚ[X]) (a b : ℚ) : ℚ :=
  p.sum fun i c => c * ((b ^ (i + 1) - a ^ (i + 1)) / (i + 1))

theorem definiteIntegral_eq {n : Nat} (h : p.natDegree < n) (a b : ℚ) :
    definiteIntegral p a b =
      ∑ i ∈ Finset.range n, p.coeff i * ((b ^ (i + 1) - a ^ (i + 1)) / (i + 1)) := by
  rw [definiteIntegral, p.sum_over_range' _ n h]
  intro i
  exact zero_mul _

/-- It is the integral of analysis. -/
theorem cast_definiteIntegral (p : ℚ[X]) (a b : ℚ) :
    (definiteIntegral p a b : ℝ) = ∫ x in (a : ℝ)..b, aeval x p := by
  have hvalue : ∀ x : ℝ, aeval x p =
      ∑ i ∈ Finset.range (p.natDegree + 1), (p.coeff i : ℝ) * x ^ i := by
    intro x
    rw [aeval_eq_sum_range]
    simp only [Rat.smul_def]
  rw [definiteIntegral_eq (Nat.lt_succ_self _)]
  simp only [hvalue]
  rw [intervalIntegral.integral_finsetSum]
  · simp only [intervalIntegral.integral_const_mul, integral_pow]
    push_cast
    rfl
  · intro i _
    exact Continuous.intervalIntegrable (by fun_prop) _ _

/-- The integrals over neighbouring intervals add up, in whatever order the bounds are. -/
theorem definiteIntegral_add (p : ℚ[X]) (a b c : ℚ) :
    definiteIntegral p a c + definiteIntegral p c b = definiteIntegral p a b := by
  simp only [definiteIntegral_eq (Nat.lt_succ_self p.natDegree)]
  rw [← Finset.sum_add_distrib]
  refine Finset.sum_congr rfl fun i _ => ?_
  ring

theorem eval_cubic (h : p.natDegree ≤ 3) (x : ℚ) :
    p.eval x = p.coeff 0 + p.coeff 1 * x + p.coeff 2 * x ^ 2 + p.coeff 3 * x ^ 3 := by
  rw [eval_eq_sum_range' (Nat.lt_succ_of_le h)]
  simp only [Finset.sum_range_succ, Finset.sum_range_zero]
  ring

theorem definiteIntegral_cubic (h : p.natDegree ≤ 3) (a b : ℚ) :
    definiteIntegral p a b = p.coeff 0 * (b - a) + p.coeff 1 * ((b ^ 2 - a ^ 2) / 2) +
      p.coeff 2 * ((b ^ 3 - a ^ 3) / 3) + p.coeff 3 * ((b ^ 4 - a ^ 4) / 4) := by
  rw [definiteIntegral_eq (Nat.lt_succ_of_le h)]
  simp only [Finset.sum_range_succ, Finset.sum_range_zero]
  push_cast
  ring

theorem eval_quartic (h : p.natDegree ≤ 4) (x : ℚ) :
    p.eval x = p.coeff 0 + p.coeff 1 * x + p.coeff 2 * x ^ 2 + p.coeff 3 * x ^ 3 +
      p.coeff 4 * x ^ 4 := by
  rw [eval_eq_sum_range' (Nat.lt_succ_of_le h)]
  simp only [Finset.sum_range_succ, Finset.sum_range_zero]
  ring

theorem eval_derivative_quartic (h : p.natDegree ≤ 4) (x : ℚ) :
    p.derivative.eval x = p.coeff 1 + 2 * p.coeff 2 * x + 3 * p.coeff 3 * x ^ 2 +
      4 * p.coeff 4 * x ^ 3 := by
  rw [derivative_eval, p.sum_over_range' _ 5 (Nat.lt_succ_of_le h)]
  · simp only [Finset.sum_range_succ, Finset.sum_range_zero]
    push_cast
    ring
  · intro i
    rw [zero_mul, zero_mul]

end Coefficients

/-! ## The estimates of an integral -/

namespace Integral

/-- Simpson's rule on one panel. -/
def simpson (g : ℚ → ℚ) (a b : ℚ) : ℚ :=
  (b - a) / 6 * (g a + 4 * g ((a + b) / 2) + g b)

theorem panel_rational (g : ℚ → ℚ) (a b : ℚ) :
    panel (fun x => pure (g x) : ℚ → Id ℚ) a b = pure (simpson g a b) := by
  simp only [panel, pure_bind, scalar_ofNat_rat]
  rfl

/-- Simpson's rule on ten pieces: the weights of the points between them are 4 and 2 in turn. -/
theorem composite_rational (g : ℚ → ℚ) (a b : ℚ) :
    let h := (b - a) / 10
    composite (fun x => pure (g x) : ℚ → Id ℚ) a b =
      pure (h / 3 * (g a + 4 * g (a + h) + 2 * g (a + 2 * h) + 4 * g (a + 3 * h) +
        2 * g (a + 4 * h) + 4 * g (a + 5 * h) + 2 * g (a + 6 * h) + 4 * g (a + 7 * h) +
        2 * g (a + 8 * h) + 4 * g (a + 9 * h) + g b)) := by
  intro h
  have hpoints : List.range' 1 (pieces - 1) = [1, 2, 3, 4, 5, 6, 7, 8, 9] := rfl
  have hwidth : (b - a) / Scalar.ofNat pieces = h := by
    rw [scalar_ofNat_rat]
    rfl
  rw [composite, hpoints, hwidth]
  simp only [List.foldlM_cons, List.foldlM_nil, pure_bind, weight, scalar_ofNat_rat]
  norm_num
  congr 1
  ring

variable {p : ℚ[X]} (hp : p.natDegree ≤ 3) (a b : ℚ)

include hp

theorem simpson_cubic : simpson (fun x => p.eval x) a b = definiteIntegral p a b := by
  simp only [simpson, eval_cubic hp, definiteIntegral_cubic hp]
  ring

theorem composite_cubic :
    composite (fun x => pure (p.eval x) : ℚ → Id ℚ) a b = pure (definiteIntegral p a b) := by
  rw [composite_rational]
  simp only [eval_cubic hp, definiteIntegral_cubic hp]
  congr 1
  ring

end Integral

/-! ## What happens on the way -/

namespace Integral

variable {ε σ α : Type}

/-- Whether a computation takes samples, and does nothing else, before it ends with a result. -/
def sampling : MonadRelation (Recorder ε σ α) Id where
  Rel x y := ∀ s events, ∃ new, x.run (s, events) = (.ok y.run, s, events ++ new) ∧
    ∀ event ∈ new, event.isSample = true
  pure a s events := ⟨[], by rw [List.append_nil]; rfl, by simp⟩
  bind {β γ x y f g} hx hf s events := by
    obtain ⟨new, hrun, hnew⟩ := hx s events
    obtain ⟨more, hrun', hmore⟩ := hf y.run s (events ++ new)
    refine ⟨new ++ more, ?_, List.forall_mem_append.mpr ⟨hnew, hmore⟩⟩
    rw [EvalM.run_bind, hrun]
    dsimp only
    rw [hrun', List.append_assoc]
    rfl

/-- A function that does not fail is sampled. -/
theorem sampling_observed (g : α → α) (x : α) :
    sampling.Rel (observed (fun x => pure (g x) : α → ExceptT ε (StateM σ) α) x)
      (pure (g x) : Id α) := by
  intro s events
  refine ⟨[.sample x (.ok (g x))], rfl, fun event hevent => ?_⟩
  rw [List.mem_singleton.mp hevent]
  rfl

/-- There are samples, and one refinement, of the first level: it is given the estimate `y`, and ends
with it after further samples, without another refinement inside it and without a cut. -/
def AcceptsAtOnce (y : α) (events : List (Event ε α)) : Prop :=
  ∃ first second, (∀ event ∈ first ++ second, event.isSample = true) ∧
    events = first ++ .enter 1 y :: (second ++ [.leave 1 y])

theorem run_record_bind {β : Type} (event : Event ε α) (next : Unit → Recorder ε σ α β) (s : σ)
    (events : List (Event ε α)) :
    (record event >>= next).run (s, events) = (next ()).run (s, events ++ [event]) := by
  rw [EvalM.run_bind]
  rfl

/-- Two halves that agree with the estimate they replace are accepted without a correction. -/
theorem refineRecorded_agreeing {f : ℚ → Recorder ε σ ℚ ℚ} (levels depth : Nat) {a b l r : ℚ}
    (hleft : sampling.Rel (panel f a ((a + b) / 2)) (pure l : Id ℚ))
    (hright : sampling.Rel (panel f ((a + b) / 2) b) (pure r : Id ℚ)) (s : σ)
    (events : List (Event ε ℚ)) :
    ∃ new, (∀ event ∈ new, event.isSample = true) ∧
      (refineRecorded f (levels + 1) depth a b tolerance (l + r) false).run (s, events) =
        (.ok (l + r, false), s,
          events ++ .enter depth (l + r) :: (new ++ [.leave depth (l + r)])) := by
  obtain ⟨first, hfirst, hsamples⟩ := hleft s (events ++ [.enter depth (l + r)])
  obtain ⟨second, hsecond, hsamples'⟩ := hright s (events ++ [.enter depth (l + r)] ++ first)
  have hmiddle : (a + b) / Scalar.ofNat 2 = (a + b) / 2 := by
    rw [scalar_ofNat_rat]
    rfl
  have hagree : Scalar.atMost (Scalar.abs (0 : ℚ)) (Scalar.ofNat 15 * tolerance) = true := by
    decide +kernel
  rw [Id.run_pure] at hfirst hsecond
  refine ⟨first ++ second, List.forall_mem_append.mpr ⟨hsamples, hsamples'⟩, ?_⟩
  rw [refineRecorded, if_neg Bool.false_ne_true, run_record_bind]
  dsimp only
  rw [hmiddle, EvalM.run_bind, hfirst]
  dsimp only
  rw [EvalM.run_bind, hsecond]
  simp only [sub_self, hagree, if_true, zero_div, add_zero, run_record_bind, List.append_assoc,
    List.cons_append, List.nil_append]
  rfl

/-- The first estimate of a cubic polynomial is its integral, and so are the two halves together. -/
theorem run_integrateRecorded_cubic (ε : Type) {p : ℚ[X]} (hp : p.natDegree ≤ 3) (a b : ℚ) (s : σ) :
    ∃ events, AcceptsAtOnce (definiteIntegral p a b) events ∧
      (integrateRecorded (fun x => pure (p.eval x) : ℚ → ExceptT ε (StateM σ) ℚ) a b).run (s, []) =
        (.ok (definiteIntegral p a b), s, events) := by
  obtain ⟨f, hf⟩ : ∃ f : ℚ → Recorder ε σ ℚ ℚ, f = observed fun x => pure (p.eval x) := ⟨_, rfl⟩
  have hsample : ∀ x, sampling.Rel (f x) (pure (p.eval x) : Id ℚ) := by
    rw [hf]
    exact sampling_observed _
  have hcomposite : sampling.Rel (composite f a b) (pure (definiteIntegral p a b) : Id ℚ) := by
    rw [← composite_cubic hp]
    exact sampling.composite hsample a b
  have hpanel : ∀ a b, sampling.Rel (panel f a b) (pure (definiteIntegral p a b) : Id ℚ) := by
    intro a b
    rw [← simpson_cubic hp, ← panel_rational]
    exact sampling.panel hsample a b
  obtain ⟨first, hfirst, hsamples⟩ := hcomposite s []
  obtain ⟨second, hsamples', hrefine⟩ :=
    refineRecorded_agreeing 19 1 (hpanel a ((a + b) / 2)) (hpanel ((a + b) / 2) b) s ([] ++ first)
  rw [definiteIntegral_add] at hrefine
  have hlevels : levels = 19 + 1 := rfl
  refine ⟨_, ⟨first, second, List.forall_mem_append.mpr ⟨hsamples, hsamples'⟩, rfl⟩, ?_⟩
  rw [integrateRecorded, ← hf, EvalM.run_bind, hfirst]
  dsimp only [Id.run_pure]
  rw [EvalM.run_bind, hlevels, hrefine]
  rfl

end Integral

/-! ## Derivatives -/

theorem differentiate_quartic {m : Type → Type} [Monad m] [LawfulMonad m] {p : ℚ[X]}
    (hp : p.natDegree ≤ 4) (x : ℚ) :
    differentiate (fun x => pure (p.eval x) : ℚ → m ℚ) x = pure (p.derivative.eval x) := by
  simp only [differentiate, derivativeStep, pure_bind, scalar_ofNat_rat, eval_quartic hp,
    eval_derivative_quartic hp]
  congr 1
  push_cast
  ring

/-- Over the rationals, integration is exact on the polynomials of degree 3 at most, between any two
bounds, and accepts at the first level of its course; differentiation is exact on those of degree 4 at
most. -/
theorem exact_on_polynomials {ε σ : Type} {f : ℚ → ExceptT ε (StateM σ) ℚ} {p : ℚ[X]}
    (hf : ∀ x, f x = pure (p.eval x)) (s : σ) :
    (p.natDegree ≤ 3 → ∀ a b : ℚ,
      let course := Integral.course f a b s
      (course.outcome, course.state) = (integrate f a b).run s ∧
        ∃ y : ℚ, ((y : ℝ) = ∫ x in (a : ℝ)..b, aeval x p) ∧
          (integrate f a b).run s = (.ok y, s) ∧ Integral.AcceptsAtOnce y course.events) ∧
    (p.natDegree ≤ 4 → ∀ x : ℚ,
      (differentiate f x).run s = (.ok (p.derivative.eval x), s)) := by
  obtain rfl : f = fun x => pure (p.eval x) := funext hf
  refine ⟨fun hp a b => ?_, fun hp x => ?_⟩
  · obtain ⟨events, haccepts, hrun⟩ := Integral.run_integrateRecorded_cubic ε hp a b s
    have hcourse : Integral.course (fun x => pure (p.eval x) : ℚ → ExceptT ε (StateM σ) ℚ) a b s =
        ⟨.ok (definiteIntegral p a b), s, events⟩ := by
      rw [Integral.course, hrun]
    refine ⟨Integral.course_eq _ a b s, definiteIntegral p a b, cast_definiteIntegral p a b, ?_, ?_⟩
    · rw [← Integral.course_eq, hcourse]
    · rw [hcourse]
      exact haccepts
  · rw [differentiate_quartic hp]
    rfl

/-- The third power from 2 down to 0, which the first level accepts, and the slope of the fourth power
at 3. -/
theorem exact_on_powers :
    let cube : ℚ → ExceptT Error (StateM Unit) ℚ := fun x => pure ((X ^ 3 : ℚ[X]).eval x)
    let fourth : ℚ → ExceptT Error (StateM Unit) ℚ := fun x => pure ((X ^ 4 : ℚ[X]).eval x)
    (X ^ 3 : ℚ[X]).natDegree ≤ 3 ∧ (integrate cube 2 0).run () = (.ok (-4), ()) ∧
      Integral.AcceptsAtOnce (-4) (Integral.course cube 2 0 ()).events ∧
      (X ^ 4 : ℚ[X]).natDegree ≤ 4 ∧ (differentiate fourth 3).run () = (.ok 108, ()) := by
  intro cube fourth
  have hcubic : (X ^ 3 : ℚ[X]).natDegree ≤ 3 := natDegree_X_pow_le 3
  have hquartic : (X ^ 4 : ℚ[X]).natDegree ≤ 4 := natDegree_X_pow_le 4
  obtain ⟨-, y, hy, hrun, haccepts⟩ :=
    (exact_on_polynomials (f := cube) (fun _ => rfl) ()).1 hcubic 2 0
  have hvalue : y = -4 := by
    simp only [map_pow, aeval_X, integral_pow] at hy
    norm_num at hy
    exact_mod_cast hy
  have hslope : (X ^ 4 : ℚ[X]).derivative.eval 3 = 108 := by
    rw [derivative_X_pow]
    norm_num
  have hderivative := (exact_on_polynomials (f := fourth) (fun _ => rfl) ()).2 hquartic 3
  rw [hvalue] at hrun haccepts
  rw [hslope] at hderivative
  exact ⟨hcubic, hrun, haccepts, hquartic, hderivative⟩

/-- The fourth power is beyond it: where the first level accepts, the correction does not fit. -/
example : (integrate (fun x => pure (x * x * x * x) : ℚ → Id ℚ) 0 (1 / 10)).run ≠ 1 / 500000 := by
  decide +kernel

end Reckoner
