/-
Footprints: what evaluation does to names, counted along the expression.

What an action writes and what it reads are both counted in sets of names. The two counts differ
in what a single read or a single definition adds. They agree in everything else: going on from
one action to the next keeps both, and putting the bound name back takes it off both. So whatever
is counted in this way is counted along a whole evaluation by one induction, integration and
differentiation included, and a count only has to say what it makes of a name and of an assignment.
-/
import Reckoner.Proofs.Calculus.Relation
import Reckoner.Proofs.Evaluation.Names

set_option autoImplicit false

namespace Reckoner

/-- A way to count the names that an action uses, which its steps keep. -/
structure Footprint where
  /-- Whether an action uses no names but these. -/
  Within : {α : Type} → Finset String → EvalM α → Prop
  mono : ∀ {α : Type} {names more : Finset String} {action : EvalM α},
    Within names action → names ⊆ more → Within more action
  ofExcept : ∀ {α : Type} (names : Finset String) (outcome : Except EvalError α),
    Within names (EvalM.ofExcept outcome)
  bind : ∀ {α β : Type} {names : Finset String} {action : EvalM α} {next : α → EvalM β},
    Within names action → (∀ a, Within names (next a)) → Within names (action >>= next)
  define : ∀ {names : Finset String} {name : String}, name ∈ names → ∀ value : Value,
    Within names (EvalM.define name value)
  bound : ∀ {α : Type} {names : Finset String} {action : EvalM α},
    Within (insert boundName names) action → Within (names.erase boundName) (EvalM.bound action)

namespace Footprint

variable (F : Footprint) {α : Type} {names : Finset String}

theorem pure (names : Finset String) (a : α) : F.Within names (Pure.pure a : EvalM α) :=
  F.ofExcept names (.ok a)

theorem throw (names : Finset String) (error : EvalError) :
    F.Within names (MonadExcept.throw error : EvalM α) :=
  F.ofExcept names (.error error)

theorem all {actions : List (EvalM α)} (h : ∀ action ∈ actions, F.Within names action) :
    F.Within names (EvalM.all actions) := by
  induction actions with
  | nil => exact F.pure names []
  | cons action rest ih =>
    obtain ⟨haction, hrest⟩ := List.forall_mem_cons.mp h
    exact F.bind haction fun value => F.bind (ih hrest) fun values => F.pure names _

/-! ## Integration and differentiation -/

/-- The count as a relation that ignores its second computation. -/
def relation (names : Finset String) : MonadRelation EvalM EvalM where
  Rel action _ := F.Within names action
  pure := F.pure names
  bind := F.bind

/-- A sample uses the bound name and what the sampled action uses. -/
theorem sample {action : EvalM Value} (h : F.Within names action) (x : Float) :
    F.Within (insert boundName names) (EvalM.sample action x) := by
  refine F.bind (F.define (Finset.mem_insert_self _ _) _) fun _ => ?_
  exact F.bind (F.mono h (Finset.subset_insert _ _)) fun value => F.pure _ _

theorem integral {integrand : EvalM Value} (h : F.Within names integrand) (a b : Float) :
    F.Within (names.erase boundName) (EvalM.integral integrand a b) :=
  F.bound ((F.relation _).integrate (g := integrand.sample) (F.sample h) a b)

theorem derivative {f : EvalM Value} (h : F.Within names f) (x : Float) :
    F.Within (names.erase boundName) (EvalM.derivative f x) :=
  F.bound ((F.relation _).differentiate (g := f.sample) (F.sample h) x)

/-! ## Evaluation -/

section Evaluation

variable (ev : Evaluator) {used : Expr → Finset String}

/-- A call uses what its arguments use, the bound name of a first argument apart. The bounds and
the point are evaluated before the name is bound, so theirs count. -/
theorem eval_call (function : String) {arguments : List Expr}
    (h : ∀ e ∈ arguments, F.Within (used e) (ev.eval e)) :
    F.Within (ev.library.freeNames function (arguments.map used))
      (ev.eval (.call function arguments)) := by
  refine ev.eval_call_cases function arguments (fun _ => F.throw _ _) (fun _ _ _ => F.throw _ _)
    ?integral ?derivative ?ordinary
  case integral =>
    rintro integrand lower upper hget rfl
    have hbinds : ev.library.binds function = true := Library.binds_of_get? hget
    -- The bounds count in full, the integrand without the name that it is evaluated under.
    refine F.bind (F.mono (h lower (by simp)) (Library.subset_freeNames_cons (by simp))) fun a => ?_
    refine F.bind (F.mono (h upper (by simp)) (Library.subset_freeNames_cons (by simp))) fun b => ?_
    have hintegral := F.integral (h integrand (by simp)) a.toFloat b.toFloat
    exact F.bind (F.mono hintegral (Library.erase_subset_freeNames hbinds)) fun _ => F.pure _ _
  case derivative =>
    rintro f point hget rfl
    have hbinds : ev.library.binds function = true := Library.binds_of_get? hget
    refine F.bind (F.mono (h point (by simp)) (Library.subset_freeNames_cons (by simp))) fun x => ?_
    have hderivative := F.derivative (h f (by simp)) x.toFloat
    exact F.bind (F.mono hderivative (Library.erase_subset_freeNames hbinds)) fun _ => F.pure _ _
  case ordinary =>
    intro f hget hintegral hderivative
    have hbinds : ev.library.binds function = false := by
      rw [Library.binds_of_get? hget]
      cases f with
      | integral => exact absurd rfl hintegral
      | derivative => exact absurd rfl hderivative
      | elementary _ | trig _ | factorial => rfl
    -- An ordinary function works on values, and has no scope to use names of.
    refine F.bind (F.all fun action haction => ?_) fun values => F.ofExcept _ _
    obtain ⟨e, he, rfl⟩ := List.mem_map.mp haction
    exact F.mono (h e he) (Library.subset_freeNames hbinds (List.mem_map_of_mem he))

/-- Evaluation uses the names that are read off the expression, if they are read off a name and an
assignment in the right way. An assignment to anything but a name fails at once. -/
theorem eval (hunary : ∀ op e, used (.unary op e) = used e)
    (hbinary : ∀ op left right, used (.binary op left right) = used left ∪ used right)
    (hcall : ∀ function es,
      used (.call function es) = ev.library.freeNames function (es.map used))
    (hname : ∀ text, F.Within (used (.name text)) (EvalM.read text))
    (hassign : ∀ text value, F.Within (used value) (ev.eval value) →
      F.Within (used (.assign (.name text) value)) (ev.eval (.assign (.name text) value)))
    (e : Expr) : F.Within (used e) (ev.eval e) := by
  induction e with
  | numeral text =>
    unfold Evaluator.eval
    split
    · exact F.pure _ _
    · exact F.throw _ _
  | name text => exact hname text
  | unary op operand ih =>
    rw [hunary, Evaluator.eval]
    exact F.bind ih fun value => F.pure _ _
  | binary op left right ihl ihr =>
    rw [hbinary, Evaluator.eval]
    refine F.bind (F.mono ihl Finset.subset_union_left) fun a => ?_
    exact F.bind (F.mono ihr Finset.subset_union_right) fun b => F.ofExcept _ _
  | call function arguments ih =>
    rw [hcall]
    exact F.eval_call ev function ih
  | assign target value _ ih =>
    cases target with
    | name text => exact hassign text value ih
    | numeral _ | unary _ _ | binary _ _ _ | call _ _ | assign _ _ => exact F.throw _ _

end Evaluation
end Footprint
end Reckoner
