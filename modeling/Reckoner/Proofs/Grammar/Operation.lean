/-
A single operation.

Whatever the operator, two atoms with the operator between them are derived as a sum, and mean the
operation on what the atoms mean. Which rules this takes depends on how tightly the operator binds.

An expression in parentheses is such an atom, so it is the operand of whatever operator stands beside
it, as it would be read on its own.
-/
import Reckoner.Proofs.Grammar.Acceptance

set_option autoImplicit false

namespace Reckoner.Grammar.Derivation

/-- A factor as a sum of its own. -/
@[simp] def ofFactor (d : Derivation .factor) : Derivation .sum :=
  .sum (.product d .productEnd) .sumEnd

/-- Two atoms with an operator between them. -/
@[simp] def operation (left right : Derivation .atom) : BinaryOp → Derivation .sum
  | .add => .sum (.product (.single left) .productEnd)
    (.sumStep .add (Or.inl rfl) (.product (.single right) .productEnd) .sumEnd)
  | .sub => .sum (.product (.single left) .productEnd)
    (.sumStep .sub (Or.inr rfl) (.product (.single right) .productEnd) .sumEnd)
  | .mul => .sum (.product (.single left)
    (.productStep .mul (Or.inl rfl) (.single right) .productEnd)) .sumEnd
  | .div => .sum (.product (.single left)
    (.productStep .div (Or.inr (Or.inl rfl)) (.single right) .productEnd)) .sumEnd
  | .rem => .sum (.product (.single left)
    (.productStep .rem (Or.inr (Or.inr (Or.inl rfl))) (.single right) .productEnd)) .sumEnd
  | .pow => ofFactor (.power left (.single right))

section Operation

variable {library : Library} {left right : Derivation .atom}

theorem tokens_operation (op : BinaryOp) :
    (operation left right op).tokens = left.tokens ++ op.token :: right.tokens := by
  cases op <;> simp [BinaryOp.token, BinaryOp.symbol]

theorem meaning_operation (op : BinaryOp) :
    (operation left right op).meaning = .binary op left.meaning right.meaning := by
  cases op <;> rfl

/-- The exponent of a power is what nests deepest. -/
theorem nesting_operation_le {n : Nat} (op : BinaryOp) (hleft : left.nesting ≤ n)
    (hright : right.nesting ≤ n) : (operation left right op).nesting ≤ n + 2 := by
  cases op <;> simp only [operation, ofFactor, nesting] <;> omega

theorem admissible_operation (op : BinaryOp) (hclosed : left.isClosed = true)
    (hleft : left.Admissible library) (hright : right.Admissible library) :
    (operation left right op).Admissible library := by
  cases op <;> simp [hclosed, hleft, hright]

end Operation
end Reckoner.Grammar.Derivation

namespace Reckoner.Expr

open Grammar

/-- Expressions in parentheses are the operands of any operator between them. The operation opens at
most three rules around an operand, in the exponent of a power: one for the whole expression, one for
the power, and one for the exponent. -/
theorem ofTokens_operation {library : Library} {n : Nat} {ts₁ ts₂ : List Token} {e₁ e₂ : Expr}
    (op : BinaryOp) (h₁ : (rules library n).expression ts₁ = .ok (e₁, []))
    (h₂ : (rules library n).expression ts₂ = .ok (e₂, [])) (hnesting : n + 3 ≤ maxNesting)
    (hlength : ts₁.length + ts₂.length + 5 ≤ maxTokens) :
    ofTokens library
        (.op '(' :: (ts₁ ++ .op ')' :: op.token :: .op '(' :: (ts₂ ++ [.op ')']))) =
      .ok (.binary op e₁ e₂) := by
  obtain ⟨left, hadml, hnestl, rfl, htokensl⟩ := (rules_sound library n).expression h₁
  obtain ⟨right, hadmr, hnestr, rfl, htokensr⟩ := (rules_sound library n).expression h₂
  rw [List.append_nil] at htokensl htokensr
  have hnest : (Derivation.operation (.group left) (.group right) op).nesting ≤ n + 2 :=
    Derivation.nesting_operation_le op hnestl hnestr
  have haccepts : (Derivation.value (.operation (.group left) (.group right) op)).Accepts library
      (.op '(' :: (ts₁ ++ .op ')' :: op.token :: .op '(' :: (ts₂ ++ [.op ')']))) := by
    refine ⟨Derivation.admissible_operation op rfl hadml hadmr, ?_, ?_, ?_⟩
    · rw [Derivation.tokens, Derivation.tokens_operation, htokensl, htokensr]
      simp
    · simp only [List.length_cons, List.length_append, List.length_nil]
      omega
    · rw [Derivation.nesting]
      omega
  rw [ofTokens_of_derivation haccepts, Derivation.meaning, Derivation.meaning_operation]
  rfl

end Reckoner.Expr
