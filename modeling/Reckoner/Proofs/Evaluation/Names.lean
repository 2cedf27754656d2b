/-
The names that evaluating an expression may write, and those it may read.

Both are read off the expression alone: the targets of its assignments, and the names that stand
anywhere but there. One kind of occurrence does not count. Integration and differentiation bind a
name in their first argument, so what that argument does to this name stays inside; their bounds
and their point are evaluated outside. An assignment to anything but a bare name uses no name at
all, since it fails before its value is looked at.
-/
import Mathlib.Data.Finset.Lattice.Fold
import Reckoner.Evaluation

set_option autoImplicit false

namespace Reckoner

/-! ## Calls -/

/-- Whether a function binds a name in its first argument. -/
def Function.binds : Function → Bool
  | .integral | .derivative => true
  | .elementary _ | .trig _ | .factorial => false

namespace Library

/-- Whether a name is the name of a function that binds a name in its first argument. -/
def binds (library : Library) (name : String) : Bool :=
  (library.get? name).any Function.binds

theorem binds_of_get? {library : Library} {name : String} {f : Function}
    (h : library.get? name = some f) : library.binds name = f.binds := by
  rw [binds, h, Option.any_some]

example : Library.standard.names.filter Library.standard.binds = ["deriv", "integral"] := by decide

/-- The names that a call takes over from its arguments, given the names of each. -/
def freeNames (library : Library) (function : String) : List (Finset String) → Finset String
  | [] => ∅
  | first :: rest =>
    (if library.binds function then first.erase boundName else first) ∪ rest.foldr (· ∪ ·) ∅

end Library

theorem mem_foldr_union {name : String} {sets : List (Finset String)} :
    name ∈ sets.foldr (· ∪ ·) ∅ ↔ ∃ names ∈ sets, name ∈ names := by
  induction sets with
  | nil => simp only [List.foldr_nil, Finset.notMem_empty, List.not_mem_nil, false_and, exists_false]
  | cons names sets ih => simp only [List.foldr_cons, Finset.mem_union, ih, List.exists_mem_cons_iff]

namespace Library

variable {library : Library} {function : String} {first names : Finset String}
  {sets : List (Finset String)}

/-- A call takes over all names of an argument behind the first one. -/
theorem subset_freeNames_cons (h : names ∈ sets) :
    names ⊆ library.freeNames function (first :: sets) := by
  intro name hname
  rw [freeNames, Finset.mem_union, mem_foldr_union]
  exact Or.inr ⟨names, h, hname⟩

/-- A call that binds a name takes over the other names of its first argument. -/
theorem erase_subset_freeNames (h : library.binds function = true) :
    first.erase boundName ⊆ library.freeNames function (first :: sets) := by
  rw [freeNames, if_pos h]
  exact Finset.subset_union_left

/-- A call that binds no name takes over all names of its arguments. -/
theorem subset_freeNames (hbinds : library.binds function = false) (h : names ∈ sets) :
    names ⊆ library.freeNames function sets := by
  cases sets with
  | nil => exact absurd h List.not_mem_nil
  | cons first sets =>
    rcases List.mem_cons.mp h with rfl | htail
    · rw [freeNames, hbinds, if_neg Bool.false_ne_true]
      exact Finset.subset_union_left
    · exact subset_freeNames_cons htail

/-- A call that binds a name takes it over only from behind its first argument. -/
theorem boundName_notMem_freeNames (hbinds : library.binds function = true)
    (h : ∀ names ∈ sets, boundName ∉ names) :
    boundName ∉ library.freeNames function (first :: sets) := by
  rw [freeNames, if_pos hbinds, Finset.mem_union, mem_foldr_union]
  rintro (hin | ⟨names, hmem, hin⟩)
  · exact Finset.notMem_erase boundName _ hin
  · exact h names hmem hin

/-- A call takes over no name where its arguments have none. -/
theorem freeNames_eq_empty (library : Library) (function : String)
    (h : ∀ names ∈ sets, names = ∅) : library.freeNames function sets = ∅ := by
  cases sets with
  | nil => rfl
  | cons first rest =>
    have hfirst : first = ∅ := h first List.mem_cons_self
    have hrest : rest.foldr (· ∪ ·) ∅ = (∅ : Finset String) := by
      refine Finset.eq_empty_of_forall_notMem fun name hname => ?_
      obtain ⟨names, hmem, hin⟩ := mem_foldr_union.mp hname
      rw [h names (List.mem_cons_of_mem _ hmem)] at hin
      exact Finset.notMem_empty name hin
    rw [freeNames, hrest, hfirst, Finset.erase_empty, ite_self, Finset.union_empty]

end Library

/-! ## Writing -/

namespace Expr

mutual

/-- The names that an expression may write. -/
def writes (library : Library) : Expr → Finset String
  | .numeral _ => ∅
  | .name _ => ∅
  | .unary _ operand => operand.writes library
  | .binary _ left right => left.writes library ∪ right.writes library
  | .call function arguments => library.freeNames function (writesAll library arguments)
  | .assign target value =>
    match target with
    | .name text => insert text (value.writes library)
    | _ => ∅

/-- The names that each of a list of expressions may write. -/
def writesAll (library : Library) : List Expr → List (Finset String)
  | [] => []
  | e :: es => e.writes library :: writesAll library es

end

theorem writesAll_eq_map (library : Library) (es : List Expr) :
    writesAll library es = es.map (writes library) := by
  induction es with
  | nil => rfl
  | cons e es ih => rw [writesAll, ih, List.map_cons]

/-! ## Reading -/

mutual

/-- The names that an expression may read. -/
def reads (library : Library) : Expr → Finset String
  | .numeral _ => ∅
  | .name text => {text}
  | .unary _ operand => operand.reads library
  | .binary _ left right => left.reads library ∪ right.reads library
  | .call function arguments => library.freeNames function (readsAll library arguments)
  | .assign target value =>
    match target with
    | .name _ => value.reads library
    | _ => ∅

/-- The names that each of a list of expressions may read. -/
def readsAll (library : Library) : List Expr → List (Finset String)
  | [] => []
  | e :: es => e.reads library :: readsAll library es

end

theorem readsAll_eq_map (library : Library) (es : List Expr) :
    readsAll library es = es.map (reads library) := by
  induction es with
  | nil => rfl
  | cons e es ih => rw [readsAll, ih, List.map_cons]

/-! ## No assignments -/

mutual

/-- Whether there is an assignment anywhere in an expression. -/
def hasAssignment : Expr → Bool
  | .numeral _ => false
  | .name _ => false
  | .unary _ operand => operand.hasAssignment
  | .binary _ left right => left.hasAssignment || right.hasAssignment
  | .call _ arguments => anyHasAssignment arguments
  | .assign _ _ => true

/-- Whether there is an assignment in one of a list of expressions. -/
def anyHasAssignment : List Expr → Bool
  | [] => false
  | e :: es => e.hasAssignment || anyHasAssignment es

end

theorem anyHasAssignment_eq_any (es : List Expr) : anyHasAssignment es = es.any hasAssignment := by
  induction es with
  | nil => rfl
  | cons e es ih => rw [anyHasAssignment, ih, List.any_cons]

end Expr

/-- An expression without assignments writes nothing. -/
theorem Expr.writes_eq_empty (library : Library) {e : Expr} (h : e.hasAssignment = false) :
    e.writes library = ∅ := by
  induction e with
  | numeral text => rfl
  | name text => rfl
  | unary op operand ih => exact ih h
  | binary op left right ihl ihr =>
    obtain ⟨hl, hr⟩ := Bool.or_eq_false_iff.mp h
    rw [writes, ihl hl, ihr hr, Finset.union_empty]
  | call function arguments ih =>
    rw [hasAssignment, anyHasAssignment_eq_any, List.any_eq_false] at h
    rw [writes, writesAll_eq_map]
    refine library.freeNames_eq_empty function fun names hnames => ?_
    obtain ⟨e, he, rfl⟩ := List.mem_map.mp hnames
    exact ih e he (Bool.eq_false_of_not_eq_true (h e he))
  | assign target value => exact Bool.noConfusion h

end Reckoner
