/-
The entry: the line of input as it is typed, and what each key does to its text.

The text is looked at from its end. The operators at the end can be replaced by another operator;
the part behind the last operator is the operand being typed, and takes at most one point; a
function name with its parenthesis is erased in one stroke.

Some keys type a symbol that the lexer does not know. It is replaced when the entry is prepared
for calculation, and then also the parentheses that are still open are closed.
-/
import Reckoner.Library
import Reckoner.RealText
import Reckoner.Screen
import Reckoner.Token

set_option autoImplicit false

namespace Reckoner
namespace Entry

/-- The operators that a key can type, and that end an operand. -/
def isOperator (c : Char) : Bool :=
  c ∈ ['+', '-', '*', '/', '%', '^']

/-- The operators at the end of a text. -/
def operatorsAtEnd (cs : List Char) : List Char :=
  (cs.reverse.takeWhile isOperator).reverse

/-- A text without the operators at its end. -/
def dropOperators (cs : List Char) : List Char :=
  (cs.reverse.dropWhile isOperator).reverse

/-- The part of a text behind its last operator. -/
def operand (cs : List Char) : List Char :=
  (cs.reverse.takeWhile fun c => !isOperator c).reverse

/-! ## Typing -/

/-- Adds a digit or a point. A second point in one operand is ignored, and so is everything once
the text has `limit` characters. A lone zero gives way to a digit. -/
def addDigit (limit : Nat) (c : Char) (cs : List Char) : List Char :=
  if c = '.' ∧ '.' ∈ operand cs then cs
  else if limit ≤ cs.length then cs
  else if cs = ['0'] ∧ c ≠ '.' then [c]
  else cs ++ [c]

/-- Adds an operator. It takes the place of the operators at the end, unless the text is `fresh`,
that is, a result; and a minus may follow any operator but a minus, as a sign. -/
def addOperator (fresh : Bool) (op : Char) (cs : List Char) : List Char :=
  match (operatorsAtEnd cs).getLast? with
  | some last =>
    if fresh || (op == '-' && last != '-') then cs ++ [op] else dropOperators cs ++ [op]
  | none => cs ++ [op]

/-- Whether a text is one that the next thing typed replaces. -/
def isBlank (cs : List Char) : Bool :=
  cs == ['0'] || cs == failureText.toList

/-- Adds a function with its parenthesis. Unless the text is `fresh`, it is multiplied with what
ends in a digit, a point, a closing parenthesis or the letter of the bound name. -/
def addFunction (fresh : Bool) (call cs : List Char) : List Char :=
  if isBlank cs then call
  else
    let multiplies := match cs.getLast? with
      | some c => c.isDigit || c == '.' || c == ')' || c == 'x'
      | none => false
    if !fresh && multiplies then cs ++ '*' :: call else cs ++ call

/-- Adds any other symbol. A closing parenthesis, a comma and an equals sign need something in
front of them, so they never replace it. -/
def addSymbol (symbol cs : List Char) : List Char :=
  if isBlank cs && symbol != [')'] && symbol != [','] && symbol != ['='] then symbol
  else cs ++ symbol

/-! ## Erasing -/

/-- The number of characters that the erase key takes away: those of the longest function with its
parenthesis at the end of the text, or a single one. -/
def strokeLength (library : Library) (cs : List Char) : Nat :=
  let calls := library.names.map fun name => name.toList ++ ['(']
  ((calls.filter (·.isSuffixOf cs)).map List.length).max?.getD 1

/-- Takes the last stroke away, and leaves a zero if nothing remains. -/
def erase (library : Library) (cs : List Char) : List Char :=
  if cs = failureText.toList then ['0']
  else
    match cs.take (cs.length - strokeLength library cs) with
    | [] => ['0']
    | rest => rest

/-! ## Reading -/

/-- The number that a text starts with: the longest beginning of it, blanks apart, that is the
text of a real. -/
def leadingReal? (cs : List Char) : Option Float :=
  let cs := cs.dropWhile Token.isBlank
  (List.range cs.length).reverse.findSome? fun (n : Nat) => realOfText? (cs.take (n + 1))

/-- The symbols that stand for others. -/
def expand : Char → List Char
  | '×' => ['*']
  | '÷' => ['/']
  | 'π' => ['P', 'I']
  | c => [c]

/-- As many closing parentheses as are missing. -/
def missingParentheses (cs : List Char) : List Char :=
  List.replicate (cs.count '(' - cs.count ')') ')'

/-- The text that is calculated. -/
def prepare (cs : List Char) : List Char :=
  let cs := cs.flatMap expand
  cs ++ missingParentheses cs

end Entry

/-- The line that is calculated for an entry. -/
def preparedLine (entry : String) : String :=
  String.ofList (Entry.prepare entry.toList)

end Reckoner
