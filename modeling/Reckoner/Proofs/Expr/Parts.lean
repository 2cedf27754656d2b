/-
The parts of an expression: itself, its operands and arguments, and theirs.

What is said of "a power somewhere in the expression" or "some assignment in it" is said of a part.
The arguments of a call and both sides of an assignment count, whether they are evaluated or not.
-/
import Reckoner.Expr.Basic

set_option autoImplicit false

namespace Reckoner.Expr

/-- The parts of an expression, itself among them. -/
inductive Part : Expr → Expr → Prop where
  | refl {e : Expr} : Part e e
  | operand {part operand : Expr} (op : UnaryOp) (h : Part part operand) :
    Part part (.unary op operand)
  | left {part left : Expr} (op : BinaryOp) (right : Expr) (h : Part part left) :
    Part part (.binary op left right)
  | right {part right : Expr} (op : BinaryOp) (left : Expr) (h : Part part right) :
    Part part (.binary op left right)
  | argument {part e : Expr} {arguments : List Expr} (function : String) (he : e ∈ arguments)
    (h : Part part e) : Part part (.call function arguments)
  | target {part target : Expr} (value : Expr) (h : Part part target) :
    Part part (.assign target value)
  | value {part value : Expr} (target : Expr) (h : Part part value) :
    Part part (.assign target value)

/-- The parts of a part are parts of the whole. -/
theorem Part.trans {a b c : Expr} (hab : Part a b) (hbc : Part b c) : Part a c := by
  -- On the way from the whole to the part, at whose end the other way goes on.
  induction hbc with
  | refl => exact hab
  | operand op _ ih => exact .operand op ih
  | left op right _ ih => exact .left op right ih
  | right op left _ ih => exact .right op left ih
  | argument function he _ ih => exact .argument function he ih
  | target value _ ih => exact .target value ih
  | value target _ ih => exact .value target ih

/-- A leaf has no part but itself. -/
@[simp] theorem part_numeral {p : Expr} {text : String} :
    Part p (.numeral text) ↔ p = .numeral text := by
  constructor
  · rintro ⟨⟩
    rfl
  · rintro rfl
    exact .refl

@[simp] theorem part_name {p : Expr} {text : String} : Part p (.name text) ↔ p = .name text := by
  constructor
  · rintro ⟨⟩
    rfl
  · rintro rfl
    exact .refl

/-- The parts of an operation are itself and those of its two operands. -/
@[simp] theorem part_binary {p left right : Expr} {op : BinaryOp} :
    Part p (.binary op left right) ↔
      p = .binary op left right ∨ Part p left ∨ Part p right := by
  constructor
  · intro h
    cases h with
    | refl => exact Or.inl rfl
    | left _ _ hleft => exact Or.inr (Or.inl hleft)
    | right _ _ hright => exact Or.inr (Or.inr hright)
  · rintro (rfl | hleft | hright)
    · exact .refl
    · exact .left op right hleft
    · exact .right op left hright

/-- The parts of a call are itself and those of its arguments. -/
@[simp] theorem part_call {p : Expr} {function : String} {arguments : List Expr} :
    Part p (.call function arguments) ↔
      p = .call function arguments ∨ ∃ e ∈ arguments, Part p e := by
  constructor
  · intro h
    cases h with
    | refl => exact Or.inl rfl
    | argument _ he hpart => exact Or.inr ⟨_, he, hpart⟩
  · rintro (rfl | ⟨e, he, hpart⟩)
    · exact .refl
    · exact .argument function he hpart

end Reckoner.Expr
