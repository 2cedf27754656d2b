/-
Calculation: from a line of input to its result.

A line is cut into tokens, the tokens are read as an expression, and the expression is evaluated;
each phase that fails ends the calculation with its own kind of error. Only the last phase touches
the scope. A result that is not a number is an error as well, although everything the evaluation
has defined stays defined.
-/
import Reckoner.Evaluation
import Reckoner.Expr.Grammar

set_option autoImplicit false

namespace Reckoner

/-- How a result came about, for the user to follow: the tokens, the expression with all its
parentheses, and a remark. -/
structure Working where
  tokens : String
  tree : String
  note : String
  deriving DecidableEq, Repr

namespace Evaluator

/-- The result of a line of input with its working. -/
def detail (ev : Evaluator) (line : String) (scope : Scope) :
    Except Error (Value × Working) × Scope :=
  match Token.ofText line with
  | .error c => (.error (.strayCharacter c), scope)
  | .ok tokens =>
    match Expr.ofTokens ev.library tokens with
    | .error fault => (.error (.malformed fault), scope)
    | .ok tree =>
      match (ev.eval tree).run scope with
      | (.error error, after) => (.error (.evaluation error), after)
      | (.ok value, after) =>
        if value.isNaN then (.error .notANumber, after)
        else
          let working := {
            tokens := Token.showAll tokens
            tree := tree.render
            note := "Pipeline: jetons → AST → évaluation (Entier/Reel)." }
          (.ok (value, working), after)

/-- The result of a line of input. -/
def calculate (ev : Evaluator) (line : String) (scope : Scope) : Except Error Value × Scope :=
  let (outcome, after) := ev.detail line scope
  (outcome.map Prod.fst, after)

end Evaluator
end Reckoner
