/-
The scope: the variables of a session and their values.

A name that nobody has defined may still mean something: the two constants, under the names that
are usual for them, and the bound variable of integration and differentiation, which is zero
outside of both. A definition hides any of these.

Two scopes are equal as soon as they look the same, because the map behind them is compared by its
bindings only. So "the scope is unchanged" is an equation.
-/
import Std.Data.ExtTreeMap
import Reckoner.Error
import Reckoner.Value.Basic

set_option autoImplicit false

namespace Reckoner

/-- The name that integration and differentiation bind. -/
def boundName : String := "x"

/-- The variables that are defined, with their values. -/
structure Scope where
  bindings : Std.ExtTreeMap String Value

namespace Scope

/-- The scope in which nothing is defined. -/
def empty : Scope := ⟨∅⟩

instance : EmptyCollection Scope := ⟨empty⟩
instance : Inhabited Scope := ⟨empty⟩

/-- The value a name is defined to have, if it is defined. -/
def get? (scope : Scope) (name : String) : Option Value :=
  scope.bindings[name]?

/-- Defines a name, in place of what it was before. -/
def define (scope : Scope) (name : String) (value : Value) : Scope :=
  ⟨scope.bindings.insert name value⟩

/-- Forgets a name. -/
def erase (scope : Scope) (name : String) : Scope :=
  ⟨scope.bindings.erase name⟩

/-- How many names are defined. -/
def size (scope : Scope) : Nat :=
  scope.bindings.size

/-- The definitions, in the order of the names. -/
def toList (scope : Scope) : List (String × Value) :=
  scope.bindings.toList

/-- The scope with these definitions, a later one replacing an earlier one of the same name. -/
def ofList (definitions : List (String × Value)) : Scope :=
  definitions.foldl (fun scope d => scope.define d.1 d.2) empty

/-! ## What the operations do to a lookup

A scope is known by its lookups, so one equation for each operation says all there is to say. -/

/-- Scopes with the same lookups are equal. -/
theorem ext {p q : Scope} (h : ∀ name, p.get? name = q.get? name) : p = q := by
  cases p
  cases q
  exact congrArg Scope.mk (Std.ExtTreeMap.ext_getElem? fun name => h name)

/-- Nothing is defined in the empty scope. -/
@[simp] theorem get?_empty (name : String) : empty.get? name = none :=
  Std.ExtTreeMap.getElem?_empty

/-- A definition changes the one name and leaves every other as it was. -/
theorem get?_define (scope : Scope) (name other : String) (value : Value) :
    (scope.define name value).get? other = if name = other then some value else scope.get? other := by
  simp only [get?, define, Std.ExtTreeMap.getElem?_insert, Std.compare_eq_iff_eq]

/-- Erasing takes away the one name and leaves every other as it was. -/
theorem get?_erase (scope : Scope) (name other : String) :
    (scope.erase name).get? other = if name = other then none else scope.get? other := by
  simp only [get?, erase, Std.ExtTreeMap.getElem?_erase, Std.compare_eq_iff_eq]

/-! ## Reading a name -/

/-- What a name means where it is not defined. -/
def builtIn? (name : String) : Option Value :=
  if name = "PI" ∨ name = "pi" then some (.real 3.141592653589793)
  else if name = "E" ∨ name = "e" then some (.real 2.718281828459045)
  else if name = boundName then some (.real 0)
  else none

/-- What a name means: its definition, or else what it means without one. -/
def read (scope : Scope) (name : String) : Except EvalError Value :=
  match (scope.get? name).or (builtIn? name) with
  | some value => .ok value
  | none => .error (.unknownName name)

/-! ## Binding a name for a while -/

/-- Puts a name back to how it was in an earlier scope: defined as it was there, or undefined. -/
def restore (scope earlier : Scope) (name : String) : Scope :=
  match earlier.get? name with
  | some value => scope.define name value
  | none => scope.erase name

/-- Restoring makes the one name what it was, and leaves every other as it is. -/
theorem get?_restore (scope earlier : Scope) (name other : String) :
    (scope.restore earlier name).get? other =
      if name = other then earlier.get? other else scope.get? other := by
  unfold restore
  split
  · next value h =>
    rw [get?_define]
    split
    · next hname => rw [← hname, h]
    · rfl
  · next h =>
    rw [get?_erase]
    split
    · next hname => rw [← hname, h]
    · rfl

/-- Runs an action that may use a name as it likes. The action starts with the name undefined,
and after it, whatever its outcome, the name is as it was before. -/
def binding {α : Type} (name : String) (action : Scope → α × Scope) (scope : Scope) : α × Scope :=
  let (outcome, after) := action (scope.erase name)
  (outcome, after.restore scope name)

end Scope
end Reckoner
