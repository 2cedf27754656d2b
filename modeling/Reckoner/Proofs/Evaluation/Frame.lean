/-
The frame of evaluation: what it leaves alone.

An action writes within a set of names if, whatever its outcome, every other name keeps its binding
and no name loses one. This is a footprint: it needs one lemma for each way in which actions are put
together, and evaluation has it then. A failure needs no lemma of its own: what an action has written
when it fails is part of what it writes.

The one place where a name is unbound for a while is inside integration and differentiation. There
the samples write the bound name besides what the sampled expression writes, and putting the name
back afterwards takes it off the set again, even if the expression assigns to it.
-/
import Reckoner.Proofs.Evaluation.Footprint

set_option autoImplicit false

namespace Reckoner

/-! ## Scopes that differ in a set of names only -/

/-- The second scope keeps the bindings of the first one outside of `names`, and binds every name
that the first one binds. -/
structure Scope.KeptOutside (names : Finset String) (before after : Scope) : Prop where
  get?_eq : ∀ name, name ∉ names → after.get? name = before.get? name
  isSome : ∀ name, (before.get? name).isSome → (after.get? name).isSome

namespace Scope.KeptOutside

variable {names more : Finset String} {p q r : Scope}

theorem refl (names : Finset String) (p : Scope) : KeptOutside names p p :=
  ⟨fun _ _ => rfl, fun _ h => h⟩

theorem trans (hpq : KeptOutside names p q) (hqr : KeptOutside names q r) :
    KeptOutside names p r :=
  ⟨fun name h => (hqr.get?_eq name h).trans (hpq.get?_eq name h),
    fun name h => hqr.isSome name (hpq.isSome name h)⟩

theorem mono (h : KeptOutside names p q) (hle : names ⊆ more) : KeptOutside more p q :=
  ⟨fun name hname => h.get?_eq name fun hin => hname (hle hin), h.isSome⟩

/-- A definition writes the name it defines. -/
theorem define {name : String} (hname : name ∈ names) (value : Value) (p : Scope) :
    KeptOutside names p (p.define name value) := by
  refine ⟨fun other hother => ?_, fun other hother => ?_⟩
  · rw [get?_define, if_neg]
    rintro rfl
    exact hother hname
  · rw [get?_define]
    split
    · rfl
    · exact hother

/-- A name that is erased, used and put back has not been written. -/
theorem restore {name : String} (h : KeptOutside (insert name names) (p.erase name) q) :
    KeptOutside (names.erase name) p (q.restore p name) := by
  refine ⟨fun other hother => ?_, fun other hother => ?_⟩
  · rw [get?_restore]
    split
    · rfl
    · next hne =>
      have hnot : other ∉ insert name names := by
        rw [Finset.mem_insert]
        rintro (rfl | hin)
        · exact hne rfl
        · exact hother (Finset.mem_erase.mpr ⟨Ne.symm hne, hin⟩)
      rw [h.get?_eq other hnot, get?_erase, if_neg hne]
  · rw [get?_restore]
    split
    · exact hother
    · next hne =>
      refine h.isSome other ?_
      rw [get?_erase, if_neg hne]
      exact hother

end Scope.KeptOutside

/-! ## Actions that write within a set of names -/

/-- Whatever the outcome, nothing outside of `names` is written. -/
def EvalM.WritesWithin {α : Type} (names : Finset String) (action : EvalM α) : Prop :=
  ∀ scope : Scope, scope.KeptOutside names (action.run scope).2

namespace EvalM

variable {α β : Type} {names more : Finset String}

namespace WritesWithin

theorem ofExcept (names : Finset String) (outcome : Except EvalError α) :
    WritesWithin names (EvalM.ofExcept outcome) :=
  fun scope => .refl names scope

theorem read (names : Finset String) (name : String) : WritesWithin names (EvalM.read name) :=
  fun scope => .refl names scope

theorem define {name : String} (hname : name ∈ names) (value : Value) :
    WritesWithin names (EvalM.define name value) :=
  fun scope => .define hname value scope

theorem mono {action : EvalM α} (h : WritesWithin names action) (hle : names ⊆ more) :
    WritesWithin more action :=
  fun scope => (h scope).mono hle

/-- One action after the other. If the first one fails, the second one writes nothing. -/
theorem bind {action : EvalM α} {next : α → EvalM β} (ha : WritesWithin names action)
    (hn : ∀ a, WritesWithin names (next a)) : WritesWithin names (action >>= next) := by
  intro scope
  have hscope := ha scope
  rw [run_bind]
  split
  · next a after heq =>
    rw [heq] at hscope
    exact hscope.trans (hn a after)
  · next error after heq =>
    rw [heq] at hscope
    exact hscope

/-- The bound name is taken off what an action may write. -/
theorem bound {action : EvalM α} (h : WritesWithin (insert boundName names) action) :
    WritesWithin (names.erase boundName) (EvalM.bound action) :=
  fun scope => (h (scope.erase boundName)).restore

end WritesWithin

/-- What actions write is a footprint. -/
def writing : Footprint where
  Within := WritesWithin
  mono := WritesWithin.mono
  ofExcept := WritesWithin.ofExcept
  bind := WritesWithin.bind
  define := WritesWithin.define
  bound := WritesWithin.bound

end EvalM

/-! ## The evaluator -/

namespace Evaluator

open EvalM (WritesWithin)

/-- Evaluation writes within the names that are read off the expression. -/
theorem eval_writesWithin (ev : Evaluator) (e : Expr) :
    WritesWithin (e.writes ev.library) (ev.eval e) := by
  refine EvalM.writing.eval ev (fun _ _ => rfl) (fun _ _ _ => rfl) (fun function es => ?_)
    (fun text => .read _ _) (fun text value ih => ?_) e
  · rw [Expr.writes, Expr.writesAll_eq_map]
  · rw [eval]
    refine EvalM.writing.bind (.mono ih (Finset.subset_insert _ _)) fun result => ?_
    exact .bind (.define (Finset.mem_insert_self _ _) _) fun _ => EvalM.writing.pure _ _

/-- An expression without assignments leaves the whole scope as it was. -/
theorem run_eval_snd (ev : Evaluator) {e : Expr} (h : e.hasAssignment = false) (scope : Scope) :
    ((ev.eval e).run scope).2 = scope := by
  refine Scope.ext fun name => (ev.eval_writesWithin e scope).get?_eq name ?_
  rw [Expr.writes_eq_empty ev.library h]
  exact Finset.notMem_empty name

/-- **The frame of evaluation.** Whether evaluation succeeds or fails, and wherever it fails, every
name that the expression does not write keeps its binding, and no name loses one. So an expression
without assignments leaves the whole scope as it was. A call that binds a name in its first
argument leaves that name as it was, unless the bounds or the point write it. -/
theorem eval_frame (ev : Evaluator) (e : Expr) (scope : Scope) :
    (∀ name, name ∉ e.writes ev.library →
        ((ev.eval e).run scope).2.get? name = scope.get? name) ∧
      (∀ name, (scope.get? name).isSome → (((ev.eval e).run scope).2.get? name).isSome) ∧
      (e.hasAssignment = false → ((ev.eval e).run scope).2 = scope) ∧
      (∀ function first rest, e = .call function (first :: rest) →
        ev.library.binds function = true →
        (∀ argument ∈ rest, boundName ∉ argument.writes ev.library) →
        ((ev.eval e).run scope).2.get? boundName = scope.get? boundName) := by
  have hkept := ev.eval_writesWithin e scope
  refine ⟨hkept.get?_eq, hkept.isSome, fun h => ev.run_eval_snd h scope, ?_⟩
  rintro function first rest rfl hbinds hrest
  refine hkept.get?_eq boundName ?_
  rw [Expr.writes, Expr.writesAll_eq_map, List.map_cons]
  refine Library.boundName_notMem_freeNames hbinds fun names hmem => ?_
  obtain ⟨argument, harg, rfl⟩ := List.mem_map.mp hmem
  exact hrest argument harg

/-- The integral of `x = 1 / x` from `k = 0` to `1` fails at its first sample, in the middle of an
assignment to the bound name. By then `k` is written, but `x` and `z` are as they were. -/
theorem eval_frame_failing_integral :
    let e : Expr := .call "integral"
      [.assign (.name "x") (.binary .div (.numeral "1") (.name "x")),
        .assign (.name "k") (.numeral "0"), .numeral "1"]
    let scope := Scope.ofList [("x", .whole 7), ("z", .whole 3)]
    let after := (((⟨.standard, .degrees⟩ : Evaluator).eval e).run scope).2
    "z" ∉ e.writes .standard ∧ after.get? "z" = some (.whole 3) ∧
      after.get? "x" = some (.whole 7) := by
  intro e scope after
  have hz : "z" ∉ e.writes .standard := by decide
  have hscope : scope.get? "z" = some (.whole 3) ∧ scope.get? boundName = some (.whole 7) := by
    simp [scope, Scope.ofList, Scope.get?_define, boundName]
  have hframe := eval_frame ⟨.standard, .degrees⟩ e scope
  refine ⟨hz, (hframe.1 "z" hz).trans hscope.1, ?_⟩
  exact (hframe.2.2.2 "integral" _ _ rfl (by decide) (by decide)).trans hscope.2

end Evaluator
end Reckoner
