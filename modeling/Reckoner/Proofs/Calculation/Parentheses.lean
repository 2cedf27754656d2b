/-
Parentheses keep a text together.

A text in parentheses means what it means on its own, whichever operator stands beside it. The lexer
meets a closing parenthesis where it would have met the end, and neither goes on with any run. The
grammar reads an expression up to the parenthesis as it would have up to the end. What the operator
costs is five tokens, and up to three more rules that are open at once.
-/
import Reckoner.Proofs.Calculation.Phases
import Reckoner.Proofs.Display.Tokens
import Reckoner.Proofs.Grammar.Operation
import Reckoner.Proofs.Lexer.Concatenation

set_option autoImplicit false

namespace Reckoner

/-- A text falls into these tokens and is read as this expression, and in reading it at most `n` of
the rules `expression` and `factor` are open at once. -/
structure Expr.ReadWithin (library : Library) (n : Nat) (text : String) (tokens : List Token)
    (e : Expr) : Prop where
  lexes : Token.ofText text = .ok tokens
  parses : Expr.ofTokens library tokens = .ok e
  nesting : (Grammar.rules library n).expression tokens = .ok (e, [])

/-- Two texts in parentheses, with an operator between them. -/
def BinaryOp.joinTexts (op : BinaryOp) (left right : String) : String :=
  "(" ++ left ++ ")" ++ op.symbol.toString ++ "(" ++ right ++ ")"

theorem BinaryOp.toList_joinTexts (op : BinaryOp) (left right : String) :
    (op.joinTexts left right).toList =
      '(' :: (left.toList ++ ')' :: op.symbol :: '(' :: (right.toList ++ [')'])) := by
  simp [joinTexts]

/-- A closing parenthesis ends the last run of a text just as the end of the text does. -/
theorem Token.ofText_joinTexts (op : BinaryOp) {left right : String} {ts us : List Token}
    (hleft : ofText left = .ok ts) (hright : ofText right = .ok us) :
    ofText (op.joinTexts left right) =
      .ok (.op '(' :: (ts ++ .op ')' :: op.token :: .op '(' :: (us ++ [.op ')']))) := by
  have hclose : ofChars [')'] = .ok [.op ')'] := ofChars_op (by decide) ofChars_nil
  have hlast : ofChars (right.toList ++ [')']) = .ok (us ++ [.op ')']) :=
    ofChars_append (.cons (by decide) _) hright hclose
  have hbehind : ofChars (')' :: op.symbol :: '(' :: (right.toList ++ [')'])) =
      .ok (.op ')' :: op.token :: .op '(' :: (us ++ [.op ')'])) :=
    ofChars_op (by decide) (ofChars_op op.isOperator_symbol (ofChars_op (by decide) hlast))
  rw [ofText, BinaryOp.toList_joinTexts]
  exact ofChars_op (by decide) (ofChars_append (.cons (by decide) _) hleft hbehind)

namespace Evaluator

/-- **Parentheses keep a text together.** Let two texts be read as expressions, with at most 125 rules
open at once in each and at most 507 tokens in both. In parentheses and with an operator between
them, they are read as the operation on the two expressions. So their value is that of the operator
on the value of the first and the value of the second, in the scope that the first one leaves, or the
first error that is met on the way. -/
theorem calculate_joinTexts (ev : Evaluator) (op : BinaryOp) {text₁ text₂ : String}
    {ts₁ ts₂ : List Token} {e₁ e₂ : Expr} (h₁ : Expr.ReadWithin ev.library 125 text₁ ts₁ e₁)
    (h₂ : Expr.ReadWithin ev.library 125 text₂ ts₂ e₂)
    (hlength : ts₁.length + ts₂.length ≤ 507) :
    (∃ ts, Token.ofText (op.joinTexts text₁ text₂) = .ok ts ∧
        Expr.ofTokens ev.library ts = .ok (.binary op e₁ e₂)) ∧
      ∀ scope : Scope,
        ev.calculate (op.joinTexts text₁ text₂) scope =
          conclude ((ev.eval (.binary op e₁ e₂)).run scope) ∧
        (ev.eval (.binary op e₁ e₂)).run scope =
          match (ev.eval e₁).run scope with
          | (.error error, after) => (.error error, after)
          | (.ok a, middle) =>
            match (ev.eval e₂).run middle with
            | (.error error, after) => (.error error, after)
            | (.ok b, after) => (op.apply a b, after) := by
  have htokens := Token.ofText_joinTexts op h₁.lexes h₂.lexes
  have hparses := Expr.ofTokens_operation op h₁.nesting h₂.nesting (by decide)
    (by rw [maxTokens]; omega)
  refine ⟨⟨_, htokens, hparses⟩, fun scope => ⟨calculate_of_read htokens hparses scope, ?_⟩⟩
  exact ev.run_eval_binary op e₁ e₂ scope

/-- The first text has a call without parentheses and ends with a numeral and an `e` that might be
the letter of a power of ten; the second one is an assignment, here in the place of an exponent. -/
theorem calculate_joinTexts_assigned_exponent :
    let ev : Evaluator := ⟨.standard, .radians⟩
    let base : Expr :=
      .binary .add (.call "sin" [.name "x"]) (.binary .mul (.numeral "2") (.name "e"))
    let exponent : Expr := .assign (.name "k") (.numeral "3")
    ∃ ts, Token.ofText "(sin x + 2e)^(k = 3)" = .ok ts ∧
      Expr.ofTokens ev.library ts = .ok (.binary .pow base exponent) := by
  intro ev base exponent
  have hbase : Expr.ReadWithin ev.library 125 "sin x + 2e"
      [.word "sin", .word "x", .op '+', .numeral "2", .word "e"] base :=
    ⟨by with_unfolding_all rfl, by rfl, by rfl⟩
  have hexponent : Expr.ReadWithin ev.library 125 "k = 3"
      [.word "k", .op '=', .numeral "3"] exponent :=
    ⟨by with_unfolding_all rfl, by rfl, by rfl⟩
  have htext : BinaryOp.joinTexts .pow "sin x + 2e" "k = 3" = "(sin x + 2e)^(k = 3)" := by decide
  rw [← htext]
  exact (ev.calculate_joinTexts .pow hbase hexponent (by decide)).1

end Evaluator
end Reckoner
