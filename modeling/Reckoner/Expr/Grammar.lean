/-
The grammar of expressions, and the reading of tokens by it.

From the loosest binding to the tightest:

    expression  :=  sum [ '=' expression ]
    sum         :=  product (('+' | '-') product)*
    product     :=  factor (('*' | '/' | '%' | '^' | nothing) factor)*
    factor      :=  ('+' | '-') factor  |  atom [ '^' factor ]
    atom        :=  numeral  |  name  |  call  |  '(' expression ')'
    call        :=  function '(' [ expression (',' expression)* ] ')'  |  function factor

Sums and products nest to the left, assignments and powers to the right. Two factors side by side
are multiplied: nothing stands between them, and the second one has to begin with a numeral, a
word or a parenthesis. A word opens a call exactly if the library has a function of that name; a
parenthesis right behind it then always holds the arguments, and without one the call takes a
single factor.

Two limits keep the reading small: an expression has at most `maxTokens` tokens, and at most
`maxNesting` of the rules `expression` and `factor` are open at once. Every reading takes what it
reads off the front of the tokens and returns the rest. The rules are built from the inside out,
by recursion on how many may still open, so the reading of any tokens ends. The loops are bounded
by the number of tokens left, of which each round takes at least one.
-/
import Reckoner.Error
import Reckoner.Library

set_option autoImplicit false

namespace Reckoner

/-- The greatest number of tokens in an expression. -/
def maxTokens : Nat := 512

/-- The greatest number of rules `expression` and `factor` that are open at once. -/
def maxNesting : Nat := 128

/-- A reading of one phrase of the grammar: its meaning and the tokens behind it. -/
abbrev Phrase (α : Type) := List Token → Except SyntaxFault (α × List Token)

namespace Grammar

/-- The two rules that nest, as far as they may still open. -/
structure Rules where
  expression : Phrase Expr
  factor : Phrase Expr

/-! ## Chains of operators -/

/-- Goes on with a chain that nests to the left: as long as `link?` finds an operator, reads
another operand with `item`. At most `fuel` operands are read. -/
def chain (item : Phrase Expr) (link? : List Token → Option (BinaryOp × List Token)) :
    Nat → Expr → Phrase Expr
  | 0, left, ts => .ok (left, ts)
  | fuel + 1, left, ts =>
    match link? ts with
    | none => .ok (left, ts)
    | some (op, ts) => do
      let (right, ts) ← item ts
      chain item link? fuel (.binary op left right) ts

/-- A chain from its first operand on. -/
def chained (item : Phrase Expr) (link? : List Token → Option (BinaryOp × List Token)) :
    Phrase Expr := fun ts => do
  let (left, ts) ← item ts
  chain item link? ts.length left ts

/-- The operator of a sum that comes next. -/
def sumLink? : List Token → Option (BinaryOp × List Token)
  | .op '+' :: ts => some (.add, ts)
  | .op '-' :: ts => some (.sub, ts)
  | _ => none

/-- The operator of a product that comes next. What begins a factor of its own stands for a
multiplication, and stays where it is. -/
def productLink? : List Token → Option (BinaryOp × List Token)
  | .op '*' :: ts => some (.mul, ts)
  | .op '/' :: ts => some (.div, ts)
  | .op '%' :: ts => some (.rem, ts)
  -- A power has taken every `^` behind its base, so no chain gets here.
  | .op '^' :: ts => some (.pow, ts)
  | .op '(' :: ts => some (.mul, .op '(' :: ts)
  | .numeral text :: ts => some (.mul, .numeral text :: ts)
  | .word text :: ts => some (.mul, .word text :: ts)
  | _ => none

/-! ## The rules -/

/-- A closing parenthesis. -/
def closing : Phrase Unit
  | .op ')' :: ts => .ok ((), ts)
  | _ => .error .unclosed

/-- Further arguments, each behind a comma. At most `fuel` are read. -/
def moreArguments (r : Rules) : Nat → Phrase (List Expr)
  | 0, ts => .ok ([], ts)
  | fuel + 1, ts =>
    match ts with
    | .op ',' :: ts => do
      let (e, ts) ← r.expression ts
      let (es, ts) ← moreArguments r fuel ts
      .ok (e :: es, ts)
    | ts => .ok ([], ts)

/-- The arguments of a call, behind the name of the function. -/
def arguments (r : Rules) : Phrase (List Expr)
  | .op '(' :: .op ')' :: ts => .ok ([], ts)
  | .op '(' :: ts => do
    let (e, ts) ← r.expression ts
    let (es, ts) ← moreArguments r ts.length ts
    let ((), ts) ← closing ts
    .ok (e :: es, ts)
  | ts => do
    let (e, ts) ← r.factor ts
    .ok ([e], ts)

/-- An operand without operators around it. -/
def atom (library : Library) (r : Rules) : Phrase Expr
  | [] => .error .incomplete
  | .numeral text :: ts => .ok (.numeral text, ts)
  | .word text :: ts =>
    if library.contains text then do
      let (es, ts) ← arguments r ts
      .ok (.call text es, ts)
    else .ok (.name text, ts)
  | .op c :: ts =>
    -- The signs were taken by `factor`, so a parenthesis is all that can open here.
    if c = '(' then do
      let (e, ts) ← r.expression ts
      let ((), ts) ← closing ts
      .ok (e, ts)
    else .error (.unexpected (.op c))

/-- An atom, raised to a power if one is written. -/
def power (library : Library) (r : Rules) : Phrase Expr := fun ts => do
  let (base, ts) ← atom library r ts
  match ts with
  | .op '^' :: ts => do
    let (exponent, ts) ← r.factor ts
    .ok (.binary .pow base exponent, ts)
  | ts => .ok (base, ts)

/-- A signed factor, or a power. -/
def factor (library : Library) (r : Rules) : Phrase Expr
  | .op '-' :: ts => do
    let (operand, ts) ← r.factor ts
    .ok (.unary .negate operand, ts)
  | .op '+' :: ts => do
    let (operand, ts) ← r.factor ts
    .ok (.unary .keep operand, ts)
  | ts => power library r ts

/-- A chain of factors. -/
def product (r : Rules) : Phrase Expr :=
  chained r.factor productLink?

/-- A chain of products. -/
def sum (r : Rules) : Phrase Expr :=
  chained (product r) sumLink?

/-- A sum, or an assignment to one. -/
def expression (r : Rules) : Phrase Expr := fun ts => do
  let (left, ts) ← sum r ts
  match ts with
  | .op '=' :: ts => do
    let (right, ts) ← r.expression ts
    .ok (.assign left right, ts)
  | ts => .ok (left, ts)

/-- The rules when `n` more may open. -/
def rules (library : Library) : Nat → Rules
  | 0 => ⟨fun _ => .error .tooDeep, fun _ => .error .tooDeep⟩
  | n + 1 =>
    let inner := rules library n
    ⟨expression inner, factor library inner⟩

end Grammar

/-- The expression that a sequence of tokens writes: all of them, with nothing left over. -/
def Expr.ofTokens (library : Library) (ts : List Token) : Except SyntaxFault Expr :=
  if maxTokens < ts.length then .error (.tooLong ts.length maxTokens)
  else do
    let (e, rest) ← (Grammar.rules library maxNesting).expression ts
    match rest with
    | [] => .ok e
    | t :: _ => .error (.unexpected t)

end Reckoner
