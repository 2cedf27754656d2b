/-
Derivations: the grammar of expressions as data.

A derivation is a tree with one node for each use of a rule. It knows the tokens it derives and the
expression they mean, so that a sequence of tokens is an expression of the grammar if some
derivation has these tokens. The rules are

    expression  :=  sum  |  sum '=' expression
    sum         :=  product (('+' | '-') product)*
    product     :=  factor (('*' | '/' | '%' | '^' | nothing) factor)*
    factor      :=  ('+' | '-') factor  |  atom  |  atom '^' factor
    atom        :=  numeral  |  word  |  '(' expression ')'  |  word '(' arguments ')'  |  word factor
    arguments   :=  nothing  |  expression (',' expression)*

Chains are kept as a first operand and a list of steps, and their meaning nests to the left.
Assignments and powers nest to the right by the form of their rules.

By these rules alone some tokens have several derivations. A derivation is admissible if it makes
the choices that settle this: a word is a function exactly if the library has it, a function with
a parenthesis behind it takes the arguments in the parentheses, two factors side by side are
multiplied only where the second one begins with a numeral, a word or a parenthesis, and a `^`
belongs to the innermost power that is being read. That a chain takes as many operands as it can is
no choice: the tokens of a further operand fit nowhere else.
-/
import Reckoner.Expr.Grammar

set_option autoImplicit false

namespace Reckoner

/-! ## Tokens that begin a phrase -/

/-- The character of a sign. -/
def UnaryOp.token (op : UnaryOp) : Token := .op op.symbol

/-- The character of an operator. -/
def BinaryOp.token (op : BinaryOp) : Token := .op op.symbol

/-- Whether an atom can begin with this token. -/
def Token.opensAtom : Token → Bool
  | .numeral _ => true
  | .word _ => true
  | .op c => c == '('

/-- Whether a factor can begin with this token. -/
def Token.opensFactor (t : Token) : Bool :=
  t.opensAtom || t == .op '+' || t == .op '-'

namespace Grammar

/-! ## Derivations -/

/-- What the rules of the grammar derive. Of the chains and the arguments, what stands behind the
first part is a symbol of its own. -/
inductive Symbol where
  | expression
  | sum
  | sumSteps
  | product
  | productSteps
  | factor
  | atom
  | arguments
  | moreArguments
  deriving DecidableEq, Repr

/-- What a phrase means. The steps of a chain mean what they make of the operand to their left. -/
abbrev Symbol.Meaning : Symbol → Type
  | .expression | .sum | .product | .factor | .atom => Expr
  | .sumSteps | .productSteps => Expr → Expr
  | .arguments | .moreArguments => List Expr

/-- The derivations of the grammar, by the symbol they start from. -/
inductive Derivation : Symbol → Type where
  | value (sum : Derivation .sum) : Derivation .expression
  | assignment (target : Derivation .sum) (value : Derivation .expression) :
    Derivation .expression
  | sum (first : Derivation .product) (steps : Derivation .sumSteps) : Derivation .sum
  | sumEnd : Derivation .sumSteps
  | sumStep (op : BinaryOp) (hop : op = .add ∨ op = .sub) (operand : Derivation .product)
    (steps : Derivation .sumSteps) : Derivation .sumSteps
  | product (first : Derivation .factor) (steps : Derivation .productSteps) : Derivation .product
  | productEnd : Derivation .productSteps
  | productStep (op : BinaryOp) (hop : op = .mul ∨ op = .div ∨ op = .rem ∨ op = .pow)
    (operand : Derivation .factor) (steps : Derivation .productSteps) : Derivation .productSteps
  | juxtaposed (operand : Derivation .factor) (steps : Derivation .productSteps) :
    Derivation .productSteps
  | signed (op : UnaryOp) (operand : Derivation .factor) : Derivation .factor
  | single (base : Derivation .atom) : Derivation .factor
  | power (base : Derivation .atom) (exponent : Derivation .factor) : Derivation .factor
  | numeral (text : String) : Derivation .atom
  | name (text : String) : Derivation .atom
  | group (e : Derivation .expression) : Derivation .atom
  | call (function : String) (arguments : Derivation .arguments) : Derivation .atom
  | command (function : String) (argument : Derivation .factor) : Derivation .atom
  | noArguments : Derivation .arguments
  | someArguments (first : Derivation .expression) (rest : Derivation .moreArguments) :
    Derivation .arguments
  | argumentsEnd : Derivation .moreArguments
  | argument (e : Derivation .expression) (rest : Derivation .moreArguments) :
    Derivation .moreArguments

namespace Derivation

/-- The tokens that a derivation derives. -/
@[simp] def tokens : {s : Symbol} → Derivation s → List Token
  | _, .value operand => operand.tokens
  | _, .assignment target right => target.tokens ++ .op '=' :: right.tokens
  | _, .sum first steps => first.tokens ++ steps.tokens
  | _, .sumEnd => []
  | _, .sumStep op _ operand steps => op.token :: (operand.tokens ++ steps.tokens)
  | _, .product first steps => first.tokens ++ steps.tokens
  | _, .productEnd => []
  | _, .productStep op _ operand steps => op.token :: (operand.tokens ++ steps.tokens)
  | _, .juxtaposed operand steps => operand.tokens ++ steps.tokens
  | _, .signed op operand => op.token :: operand.tokens
  | _, .single base => base.tokens
  | _, .power base exponent => base.tokens ++ .op '^' :: exponent.tokens
  | _, .numeral text => [.numeral text]
  | _, .name text => [.word text]
  | _, .group e => .op '(' :: (e.tokens ++ [.op ')'])
  | _, .call function args => .word function :: .op '(' :: (args.tokens ++ [.op ')'])
  | _, .command function operand => .word function :: operand.tokens
  | _, .noArguments => []
  | _, .someArguments first rest => first.tokens ++ rest.tokens
  | _, .argumentsEnd => []
  | _, .argument e rest => .op ',' :: (e.tokens ++ rest.tokens)

/-- What the tokens of a derivation mean. -/
@[simp] def meaning : {s : Symbol} → Derivation s → s.Meaning
  | _, .value operand => operand.meaning
  | _, .assignment target right => .assign target.meaning right.meaning
  | _, .sum first steps => steps.meaning first.meaning
  | _, .sumEnd => fun left => left
  | _, .sumStep op _ operand steps => fun left => steps.meaning (.binary op left operand.meaning)
  | _, .product first steps => steps.meaning first.meaning
  | _, .productEnd => fun left => left
  | _, .productStep op _ operand steps =>
    fun left => steps.meaning (.binary op left operand.meaning)
  | _, .juxtaposed operand steps => fun left => steps.meaning (.binary .mul left operand.meaning)
  | _, .signed op operand => .unary op operand.meaning
  | _, .single base => base.meaning
  | _, .power base exponent => .binary .pow base.meaning exponent.meaning
  | _, .numeral text => .numeral text
  | _, .name text => .name text
  | _, .group e => e.meaning
  | _, .call function args => .call function args.meaning
  | _, .command function operand => .call function [operand.meaning]
  | _, .noArguments => []
  | _, .someArguments first rest => first.meaning :: rest.meaning
  | _, .argumentsEnd => []
  | _, .argument e rest => e.meaning :: rest.meaning

/-- The greatest number of rules for `expression` and `factor` that are open at once when the
tokens of a derivation are read. -/
@[simp] def nesting : {s : Symbol} → Derivation s → Nat
  | _, .value operand => operand.nesting + 1
  | _, .assignment target right => max target.nesting right.nesting + 1
  | _, .sum first steps => max first.nesting steps.nesting
  | _, .sumEnd => 0
  | _, .sumStep _ _ operand steps => max operand.nesting steps.nesting
  | _, .product first steps => max first.nesting steps.nesting
  | _, .productEnd => 0
  | _, .productStep _ _ operand steps => max operand.nesting steps.nesting
  | _, .juxtaposed operand steps => max operand.nesting steps.nesting
  | _, .signed _ operand => operand.nesting + 1
  | _, .single base => base.nesting + 1
  | _, .power base exponent => max base.nesting exponent.nesting + 1
  | _, .numeral _ => 0
  | _, .name _ => 0
  | _, .group e => e.nesting
  | _, .call _ args => args.nesting
  | _, .command _ operand => operand.nesting
  | _, .noArguments => 0
  | _, .someArguments first rest => max first.nesting rest.nesting
  | _, .argumentsEnd => 0
  | _, .argument e rest => max e.nesting rest.nesting

/-! ## Admissible derivations -/

/-- Whether a phrase ends at its last token whatever stands behind it. A call without parentheses
does not: its argument may go on. -/
def isClosed : {s : Symbol} → Derivation s → Bool
  | _, .numeral _ | _, .name _ | _, .group _ | _, .call _ _ => true
  | _, _ => false

/-- Whether a derivation makes the choices that the rules leave open in the way the grammar means
them. -/
@[simp] def Admissible (library : Library) : {s : Symbol} → Derivation s → Prop
  | _, .value operand => operand.Admissible library
  | _, .assignment target right => target.Admissible library ∧ right.Admissible library
  | _, .sum first steps => first.Admissible library ∧ steps.Admissible library
  | _, .sumEnd => True
  | _, .sumStep _ _ operand steps => operand.Admissible library ∧ steps.Admissible library
  | _, .product first steps => first.Admissible library ∧ steps.Admissible library
  | _, .productEnd => True
  -- The factor before a `^` ends with a power that has no exponent yet, to which the `^` belongs.
  | _, .productStep op _ operand steps =>
    op ≠ .pow ∧ operand.Admissible library ∧ steps.Admissible library
  | _, .juxtaposed operand steps =>
    operand.tokens.head?.any Token.opensAtom ∧ operand.Admissible library ∧
      steps.Admissible library
  | _, .signed _ operand => operand.Admissible library
  | _, .single base => base.Admissible library
  -- A `^` behind a call without parentheses belongs to the argument.
  | _, .power base exponent =>
    base.isClosed ∧ base.Admissible library ∧ exponent.Admissible library
  | _, .numeral _ => True
  | _, .name text => library.contains text = false
  | _, .group e => e.Admissible library
  | _, .call function args => library.contains function ∧ args.Admissible library
  | _, .command function operand =>
    library.contains function ∧ operand.tokens.head? ≠ some (.op '(') ∧
      operand.Admissible library
  | _, .noArguments => True
  | _, .someArguments first rest => first.Admissible library ∧ rest.Admissible library
  | _, .argumentsEnd => True
  | _, .argument e rest => e.Admissible library ∧ rest.Admissible library

end Derivation
end Grammar
end Reckoner
