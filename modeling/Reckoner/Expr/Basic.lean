/-
Expressions, and the text in which they are shown.

An expression is what a line of input means before anything is computed: numerals stay as they
were typed, and a call is a name with its arguments. It holds no state, so it can be evaluated any
number of times, which is what integration and differentiation do with their first argument.

The shown text puts every operation in parentheses, so it depends on no rule of precedence. An
assignment alone has none, being the loosest of all forms.
-/

set_option autoImplicit false

namespace Reckoner

/-! ## Operators -/

/-- The signs that may stand before an operand. -/
inductive UnaryOp where
  | negate
  | keep
  deriving DecidableEq, Repr

/-- The character of a sign. -/
def UnaryOp.symbol : UnaryOp → Char
  | .negate => '-'
  | .keep => '+'

/-- The operators between two operands. -/
inductive BinaryOp where
  | add
  | sub
  | mul
  | div
  | rem
  | pow
  deriving DecidableEq, Repr

namespace BinaryOp

/-- The character of an operator. -/
def symbol : BinaryOp → Char
  | add => '+'
  | sub => '-'
  | mul => '*'
  | div => '/'
  | rem => '%'
  | pow => '^'

/-- The operator that a character stands for. -/
def ofSymbol? : Char → Option BinaryOp
  | '+' => some add
  | '-' => some sub
  | '*' => some mul
  | '/' => some div
  | '%' => some rem
  | '^' => some pow
  | _ => none

/-- Every operator is the one its own character stands for. -/
theorem ofSymbol?_symbol (op : BinaryOp) : ofSymbol? op.symbol = some op := by
  cases op <;> rfl

end BinaryOp

/-! ## Trees -/

/-- An expression. The target of an assignment is any expression here; that it has to be a bare
name is a rule of evaluation. -/
inductive Expr where
  | numeral (text : String)
  | name (text : String)
  | unary (op : UnaryOp) (operand : Expr)
  | binary (op : BinaryOp) (left right : Expr)
  | call (function : String) (arguments : List Expr)
  | assign (target value : Expr)
  deriving Repr, Inhabited

namespace Expr

/-- Induction over an expression. A call may use the claim for each of its arguments. -/
@[elab_as_elim, induction_eliminator]
theorem induction {motive : Expr → Prop}
    (numeral : ∀ text, motive (.numeral text))
    (name : ∀ text, motive (.name text))
    (unary : ∀ op operand, motive operand → motive (.unary op operand))
    (binary : ∀ op left right, motive left → motive right → motive (.binary op left right))
    (call : ∀ function arguments, (∀ e ∈ arguments, motive e) → motive (.call function arguments))
    (assign : ∀ target value, motive target → motive value → motive (.assign target value))
    (e : Expr) : motive e :=
  @Expr.rec motive (fun es => ∀ e ∈ es, motive e) numeral name unary binary call assign
    (fun _ h => absurd h List.not_mem_nil)
    (fun _ _ head tail => List.forall_mem_cons.mpr ⟨head, tail⟩) e

mutual

/-- The text that shows an expression. -/
def render : Expr → String
  | .numeral text => text
  | .name text => text
  | .unary op operand => "(" ++ op.symbol.toString ++ operand.render ++ ")"
  | .binary op left right =>
    "(" ++ left.render ++ " " ++ op.symbol.toString ++ " " ++ right.render ++ ")"
  | .call function arguments => function ++ "(" ++ ", ".intercalate (renderAll arguments) ++ ")"
  | .assign target value => target.render ++ " = " ++ value.render

/-- The texts of a list of expressions. -/
def renderAll : List Expr → List String
  | [] => []
  | e :: es => e.render :: renderAll es

end

theorem renderAll_eq_map (es : List Expr) : renderAll es = es.map render := by
  induction es with
  | nil => rfl
  | cons e es ih => rw [renderAll, ih, List.map_cons]

end Expr
end Reckoner
