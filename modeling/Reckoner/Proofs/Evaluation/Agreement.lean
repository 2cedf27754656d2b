/-
Runs that agree: evaluation depends on the names it reads, and on no others.

Take two scopes that agree on the names an expression reads. Evaluation then takes the same course
in both: it gives the same outcome, and what it does to a name is the same too. Either both runs
define the name, with the same value, or neither does. This is what the induction carries, because
what has been written on the left of an operator may be read on its right: after two such runs the
scopes still agree on every name they agreed on.

An integral takes its samples one after the other in a single scope, as many as the values found so
far make it take. That the two runs take the same ones needs no argument of its own, since each
sample gives the same value in both.

Together with the frame this settles what happens when an expression is evaluated twice. If it reads
nothing that it writes, the first run leaves the names it reads as they were, and the second one is
then the same again.
-/
import Reckoner.Proofs.Evaluation.Frame

set_option autoImplicit false

namespace Reckoner

/-! ## Scopes that agree -/

/-- Two scopes have the same bindings of these names. -/
def Scope.AgreeOn (names : Finset String) (p q : Scope) : Prop :=
  ∀ name ∈ names, p.get? name = q.get? name

/-- What a run from `p` to `p'` does to a name, a run from `q` to `q'` does too: the name has the
same binding after both, or both have left it as it was. -/
def Scope.SameEffect (p q p' q' : Scope) : Prop :=
  ∀ name, p'.get? name = q'.get? name ∨ p'.get? name = p.get? name ∧ q'.get? name = q.get? name

namespace Scope

variable {names more : Finset String} {p q p' q' p'' q'' : Scope}

theorem AgreeOn.mono (h : AgreeOn more p q) (hle : names ⊆ more) : AgreeOn names p q :=
  fun name hname => h name (hle hname)

/-- Erasing a name makes two scopes agree on it. -/
theorem AgreeOn.erase {name : String} (h : AgreeOn (names.erase name) p q) :
    AgreeOn (insert name names) (p.erase name) (q.erase name) := by
  intro other hother
  rw [get?_erase, get?_erase]
  by_cases hname : name = other
  · rw [if_pos hname, if_pos hname]
  · rw [if_neg hname, if_neg hname]
    have hmem : other ∈ names := Finset.mem_of_mem_insert_of_ne hother (Ne.symm hname)
    exact h other (Finset.mem_erase.mpr ⟨Ne.symm hname, hmem⟩)

namespace SameEffect

theorem refl (p q : Scope) : SameEffect p q p q :=
  fun _ => Or.inr ⟨rfl, rfl⟩

theorem trans (h : SameEffect p q p' q') (h' : SameEffect p' q' p'' q'') :
    SameEffect p q p'' q'' := by
  intro name
  rcases h' name with hsame | ⟨hp', hq'⟩
  · exact Or.inl hsame
  · rw [hp', hq']
    exact h name

/-- After runs with the same effect, scopes agree where they did before. -/
theorem agreeOn (h : SameEffect p q p' q') (hagree : AgreeOn names p q) : AgreeOn names p' q' := by
  intro name hname
  rcases h name with hsame | ⟨hp, hq⟩
  · exact hsame
  · rw [hp, hq]
    exact hagree name hname

theorem define (p q : Scope) (name : String) (value : Value) :
    SameEffect p q (p.define name value) (q.define name value) := by
  intro other
  simp only [get?_define]
  by_cases hname : name = other
  · simp only [if_pos hname, true_or]
  · simp only [if_neg hname, and_self, or_true]

/-- A name that is erased, used and put back is as it was, in either run. -/
theorem restore {name : String} (h : SameEffect (p.erase name) (q.erase name) p' q') :
    SameEffect p q (p'.restore p name) (q'.restore q name) := by
  intro other
  have hother := h other
  simp only [get?_erase] at hother
  simp only [get?_restore]
  by_cases hname : name = other
  · simp only [if_pos hname, and_self, or_true]
  · simp only [if_neg hname] at hother ⊢
    exact hother

end SameEffect
end Scope

/-! ## Actions that read within a set of names -/

/-- From scopes that agree on `names`, an action has the same outcome and the same effect. -/
def EvalM.ReadsWithin {α : Type} (names : Finset String) (action : EvalM α) : Prop :=
  ∀ p q : Scope, p.AgreeOn names q →
    (action.run p).1 = (action.run q).1 ∧ p.SameEffect q (action.run p).2 (action.run q).2

namespace EvalM

variable {α β : Type} {names more : Finset String}

namespace ReadsWithin

theorem ofExcept (names : Finset String) (outcome : Except EvalError α) :
    ReadsWithin names (EvalM.ofExcept outcome) :=
  fun p q _ => ⟨rfl, .refl p q⟩

theorem read {name : String} (hname : name ∈ names) : ReadsWithin names (EvalM.read name) := by
  intro p q h
  have hread : p.read name = q.read name := by rw [Scope.read, Scope.read, h name hname]
  exact ⟨hread, .refl p q⟩

/-- What is defined is the same in both runs, whatever the name meant before. -/
theorem define (names : Finset String) (name : String) (value : Value) :
    ReadsWithin names (EvalM.define name value) :=
  fun p q _ => ⟨rfl, .define p q name value⟩

theorem mono {action : EvalM α} (h : ReadsWithin names action) (hle : names ⊆ more) :
    ReadsWithin more action :=
  fun p q hagree => h p q (hagree.mono hle)

/-- One action after the other. The second one starts from scopes that agree where the first one
did, and from the same value. -/
theorem bind {action : EvalM α} {next : α → EvalM β} (ha : ReadsWithin names action)
    (hn : ∀ a, ReadsWithin names (next a)) : ReadsWithin names (action >>= next) := by
  intro p q hagree
  obtain ⟨houtcome, heffect⟩ := ha p q hagree
  rw [run_bind, run_bind]
  rcases hp : action.run p with ⟨outcome, p'⟩
  rcases hq : action.run q with ⟨outcome', q'⟩
  rw [hp, hq] at houtcome heffect
  obtain rfl : outcome = outcome' := houtcome
  cases outcome with
  | error error => exact ⟨rfl, heffect⟩
  | ok a =>
    obtain ⟨houtcome', heffect'⟩ := hn a p' q' (heffect.agreeOn hagree)
    exact ⟨houtcome', heffect.trans heffect'⟩

/-- The bound name is taken off what an action may read. -/
theorem bound {action : EvalM α} (h : ReadsWithin (insert boundName names) action) :
    ReadsWithin (names.erase boundName) (EvalM.bound action) := by
  intro p q hagree
  obtain ⟨houtcome, heffect⟩ := h _ _ hagree.erase
  exact ⟨houtcome, heffect.restore⟩

end ReadsWithin

/-- What actions read is a footprint. -/
def reading : Footprint where
  Within := ReadsWithin
  mono := ReadsWithin.mono
  ofExcept := ReadsWithin.ofExcept
  bind := ReadsWithin.bind
  define := fun _ value => ReadsWithin.define _ _ value
  bound := ReadsWithin.bound

end EvalM

/-! ## The evaluator -/

namespace Evaluator

open EvalM (ReadsWithin)

/-- Evaluation reads within the names that are read off the expression. -/
theorem eval_readsWithin (ev : Evaluator) (e : Expr) :
    ReadsWithin (e.reads ev.library) (ev.eval e) := by
  refine EvalM.reading.eval ev (fun _ _ => rfl) (fun _ _ _ => rfl) (fun function es => ?_)
    (fun text => .read (Finset.mem_singleton_self text)) (fun text value ih => ?_) e
  · rw [Expr.reads, Expr.readsAll_eq_map]
  · rw [eval]
    refine EvalM.reading.bind ih fun result => ?_
    exact .bind (.define _ text result) fun _ => EvalM.reading.pure _ _

/-- **Unread names do not interfere.** From two scopes that agree on the names an expression reads,
evaluation gives the same value or the same error, and every name has the same binding afterwards or
is as it was in both. So a call that binds a name in its first argument does not depend on what this
name was, unless the bounds or the point read it; and once these have their values, the integral and
the derivative do not depend on it at all. -/
theorem eval_noninterference (ev : Evaluator) (e : Expr) :
    (∀ p q : Scope, p.AgreeOn (e.reads ev.library) q →
        ((ev.eval e).run p).1 = ((ev.eval e).run q).1 ∧
        ∀ name, ((ev.eval e).run p).2.get? name = ((ev.eval e).run q).2.get? name ∨
          (((ev.eval e).run p).2.get? name = p.get? name ∧
            ((ev.eval e).run q).2.get? name = q.get? name)) ∧
      ∀ p q : Scope, (∀ name, name ≠ boundName → p.get? name = q.get? name) →
        (∀ function first rest, e = .call function (first :: rest) →
          ev.library.binds function = true →
          (∀ argument ∈ rest, boundName ∉ argument.reads ev.library) →
          ((ev.eval e).run p).1 = ((ev.eval e).run q).1) ∧
        (∀ a b : Float, ((EvalM.integral (ev.eval e) a b).run p).1 =
          ((EvalM.integral (ev.eval e) a b).run q).1) ∧
        ∀ x : Float, ((EvalM.derivative (ev.eval e) x).run p).1 =
          ((EvalM.derivative (ev.eval e) x).run q).1 := by
  refine ⟨ev.eval_readsWithin e, fun p q hagree => ?_⟩
  have hoff : ∀ names : Finset String, boundName ∉ names → p.AgreeOn names q := by
    intro names hnot name hname
    refine hagree name ?_
    rintro rfl
    exact hnot hname
  refine ⟨?_, ?_, ?_⟩
  · rintro function first rest rfl hbinds hrest
    refine (ev.eval_readsWithin _ p q (hoff _ ?_)).1
    rw [Expr.reads, Expr.readsAll_eq_map, List.map_cons]
    refine Library.boundName_notMem_freeNames hbinds fun names hmem => ?_
    obtain ⟨argument, harg, rfl⟩ := List.mem_map.mp hmem
    exact hrest argument harg
  · intro a b
    have hreads := EvalM.reading.integral (ev.eval_readsWithin e) a b
    exact (hreads p q (hoff _ (Finset.notMem_erase _ _))).1
  · intro x
    have hreads := EvalM.reading.derivative (ev.eval_readsWithin e) x
    exact (hreads p q (hoff _ (Finset.notMem_erase _ _))).1

/-- The integral of `k = x * a` from 0 to `a` writes `k` at every sample. It is the same where `x`
is 7 and where `x` is not defined, and `k` comes out the same. -/
theorem eval_noninterference_integral :
    let ev : Evaluator := ⟨.standard, .radians⟩
    let e : Expr := .call "integral"
      [.assign (.name "k") (.binary .mul (.name "x") (.name "a")), .numeral "0", .name "a"]
    let p := Scope.ofList [("a", .whole 2), ("x", .whole 7)]
    let q := Scope.ofList [("a", .whole 2)]
    p.get? boundName ≠ q.get? boundName ∧
      ((ev.eval e).run p).1 = ((ev.eval e).run q).1 ∧
      (((ev.eval e).run p).2.get? "k" = ((ev.eval e).run q).2.get? "k" ∨
        (((ev.eval e).run p).2.get? "k" = p.get? "k" ∧
          ((ev.eval e).run q).2.get? "k" = q.get? "k")) := by
  intro ev e p q
  have hoff : ∀ name, name ≠ boundName → p.get? name = q.get? name := by
    intro name hname
    have hx : "x" ≠ name := Ne.symm hname
    simp [p, q, Scope.ofList, Scope.get?_define, hx]
  have hagree : p.AgreeOn (e.reads ev.library) q := by
    intro name hname
    refine hoff name ?_
    rintro rfl
    exact absurd hname (by decide)
  have hdiffers : p.get? boundName ≠ q.get? boundName := by
    simp [p, q, Scope.ofList, Scope.get?_define, boundName]
  have hindependent := ev.eval_noninterference e
  refine ⟨hdiffers, ?_, (hindependent.1 p q hagree).2 "k"⟩
  exact (hindependent.2 p q hoff).1 "integral" _ _ rfl (by decide) (by decide)

/-! ## Evaluating twice -/

/-- **Evaluation is idempotent.** If an expression reads no name that it writes, evaluating it once
more gives the same value or the same error, and leaves the scope as the first evaluation left it.
This includes a first evaluation that fails half way. -/
theorem eval_idempotent (ev : Evaluator) (e : Expr)
    (h : Disjoint (e.reads ev.library) (e.writes ev.library)) (scope : Scope) :
    (ev.eval e).run ((ev.eval e).run scope).2 = (ev.eval e).run scope := by
  have hkept := ev.eval_writesWithin e scope
  have hagree : scope.AgreeOn (e.reads ev.library) ((ev.eval e).run scope).2 := by
    intro name hname
    exact (hkept.get?_eq name (Finset.disjoint_left.mp h hname)).symm
  obtain ⟨houtcome, heffect⟩ := ev.eval_readsWithin e scope _ hagree
  refine Prod.ext houtcome.symm (Scope.ext fun name => ?_)
  rcases heffect name with hsame | ⟨-, hunchanged⟩
  · exact hsame.symm
  · exact hunchanged

/-- The derivative of `m = a * x` has written `m` before the sum fails on an unknown name. Evaluating
the sum again fails in the same way, and changes nothing. -/
theorem eval_idempotent_failing_sum :
    let ev : Evaluator := ⟨.standard, .degrees⟩
    let e : Expr := .binary .add
      (.call "deriv" [.assign (.name "m") (.binary .mul (.name "a") (.name "x")), .numeral "1"])
      (.name "b")
    let scope := Scope.ofList [("a", .whole 2), ("x", .whole 7)]
    Disjoint (e.reads ev.library) (e.writes ev.library) ∧
      (ev.eval e).run ((ev.eval e).run scope).2 = (ev.eval e).run scope := by
  intro ev e scope
  have hdisjoint : Disjoint (e.reads ev.library) (e.writes ev.library) := by decide
  exact ⟨hdisjoint, ev.eval_idempotent e hdisjoint scope⟩

end Evaluator
end Reckoner
