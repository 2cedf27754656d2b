/-
What can go wrong, and how it is said.

Each phase of a calculation has its own type of failure: the lexer meets a character that belongs
to no token, the grammar a fault in the sequence of tokens, evaluation an operation that has no
value. `Error` is their union, together with the one failure that only a finished result can have,
that it is not a number. A failure records its cause; the sentence shown to the user is computed
from it.
-/
import Reckoner.Token
import Reckoner.Expr.Basic
import Reckoner.RealText

set_option autoImplicit false

namespace Reckoner

/-! ## Outcomes of several steps

A computation of several steps succeeds only if each of them does, and what is done to a value alone
does not fail. -/

theorem bind_eq_ok {ε α β : Type} {x : Except ε α} {f : α → Except ε β} {b : β}
    (h : (x >>= f) = .ok b) : ∃ a, x = .ok a ∧ f a = .ok b := by
  cases x with
  | error e => exact absurd h (by rintro ⟨⟩)
  | ok a => exact ⟨a, rfl, h⟩

theorem map_eq_ok {ε α β : Type} {x : Except ε α} {f : α → β} {b : β}
    (h : x.map f = .ok b) : ∃ a, x = .ok a ∧ f a = b := by
  cases x with
  | error e => exact absurd h (by rintro ⟨⟩)
  | ok a => exact ⟨a, rfl, Except.ok.inj h⟩

theorem eq_error_of_map {ε α β : Type} {x : Except ε α} {f : α → β} {e : ε}
    (h : x.map f = .error e) : x = .error e := by
  cases x with
  | error e' => exact congrArg Except.error (Except.error.inj h)
  | ok a => exact absurd h (by rintro ⟨⟩)

/-! ## Causes -/

/-- Why a sequence of tokens is no expression. -/
inductive SyntaxFault where
  /-- More tokens than an expression may have. -/
  | tooLong (count limit : Nat)
  /-- A token where none of its kind can stand. -/
  | unexpected (token : Token)
  /-- The end of the text, where an operand should stand. -/
  | incomplete
  /-- Something else where a closing parenthesis should stand. -/
  | unclosed
  /-- More rules of the grammar open at once than are allowed. -/
  | tooDeep
  deriving DecidableEq, Repr

/-- Why a number has no factorial. -/
inductive FactorialFault where
  | notWhole (argument : Float)
  | negative
  | tooLarge (limit : Nat)
  deriving DecidableEq, Repr

/-- Why an expression has no value. -/
inductive EvalError where
  | badNumeral (text : String)
  | unknownName (name : String)
  | unknownFunction (name : String)
  | wrongArity (function : String) (expected received : Nat)
  | divisionByZero
  /-- An assignment to something other than a bare name. -/
  | assignsTo (target : Expr)
  /-- Numbers given to a function that works on an expression. -/
  | needsExpression (function : String)
  | factorial (fault : FactorialFault)
  deriving Repr

/-- Why a line of input has no result. -/
inductive Error where
  | strayCharacter (c : Char)
  | malformed (fault : SyntaxFault)
  | evaluation (error : EvalError)
  | notANumber
  deriving Repr

/-! ## Families -/

/-- The families of failures that a user can tell apart. -/
inductive ErrorFamily where
  | lexical
  | grammatical
  | computational
  | outOfRange
  | notANumber
  deriving DecidableEq, Repr

/-- The family of a failure to evaluate. A numeral with two points is counted as bad grammar,
though it is only noticed when its value is needed. -/
def EvalError.family : EvalError → ErrorFamily
  | .badNumeral _ => .grammatical
  | .factorial _ => .outOfRange
  | .unknownName _ | .unknownFunction _ | .wrongArity _ _ _ | .divisionByZero | .assignsTo _
  | .needsExpression _ => .computational

/-- The family of a failure. -/
def Error.family : Error → ErrorFamily
  | .strayCharacter _ => .lexical
  | .malformed _ => .grammatical
  | .evaluation error => error.family
  | .notANumber => .notANumber

/-! ## Messages -/

/-- What is said about a sequence of tokens. -/
def SyntaxFault.message : SyntaxFault → String
  | .tooLong count limit =>
    "expression trop longue (" ++ toString count ++ " jetons, max " ++ toString limit ++ ")"
  | .unexpected token => "jeton inattendu: " ++ token.text
  | .incomplete => "expression incomplète"
  | .unclosed => "')' manquante"
  | .tooDeep => "imbrication trop profonde"

/-- What is said about a factorial. -/
def FactorialFault.message : FactorialFault → String
  | .notWhole argument => "fact: argument non entier (" ++ plainText argument ++ ")"
  | .negative => "fact: argument négatif"
  | .tooLarge limit => "fact: limite " ++ toString limit ++ " dépassée"

/-- What is said about an evaluation. -/
def EvalError.message : EvalError → String
  | .badNumeral text => "nombre invalide: " ++ text
  | .unknownName name => "variable inconnue: " ++ name
  | .unknownFunction name => "fonction inconnue: " ++ name
  | .wrongArity function expected received =>
    function ++ " attend " ++ toString expected ++ " argument(s), reçu " ++ toString received
  | .divisionByZero => "division par zéro"
  | .assignsTo target =>
    "opération non supportée: affectation: la cible doit être une variable (" ++ target.render ++
      ")"
  | .needsExpression function =>
    "opération non supportée: " ++ function ++ " exige une expression, pas des nombres"
  | .factorial fault => "hors limites: " ++ fault.message

/-- What is said about a line of input. -/
def Error.message : Error → String
  | .strayCharacter c => "caractère inattendu: '" ++ c.toString ++ "'"
  | .malformed fault => "syntaxe: " ++ fault.message
  | .evaluation error => error.message
  | .notANumber => "résultat non numérique (NaN)"

end Reckoner
