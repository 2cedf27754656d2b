/-
The rules of the grammar, followed with a cursor.

A reading takes its tokens off the front of a list. Here the same rules are followed by a reader that
goes through a fixed sequence of tokens. Its cursor has a position, which moves on token by token, and
a counter of the rules `expression` and `factor` that are open, which goes up where one of them opens
and down where it ends. It also keeps a list of what happens: where these rules open and end, and where
a round of a loop begins. The loops have no bound. They look at the next token in each round, and go on
or stop.

What the reader can be set to do is a task: to follow a rule, or to go on with a loop. What a task
consists of is said once, by the tasks that it sets in turn, and a clock limits how many tasks are
under way inside one another. A clock that has run out leaves no outcome at all, neither an expression
nor a fault. So nothing is said here yet about the reader coming to an end.
-/
import Reckoner.Expr.Grammar

set_option autoImplicit false

namespace Reckoner.Grammar

/-! ## What the reader keeps track of -/

/-- The chains of operands that a loop reads. -/
inductive Chain where
  | sum
  | product
  deriving DecidableEq, Repr

/-- The loops of the rules. -/
inductive Loop where
  | chain (kind : Chain)
  | arguments
  deriving DecidableEq, Repr

/-- What happens while the rules are followed. -/
inductive Event where
  /-- One of the rules `expression` and `factor` opens. -/
  | enter
  /-- The one that opened last ends, whether with an expression or with a fault. -/
  | leave
  /-- A loop begins its round of this number at `position`. Its rule began at `start`. -/
  | round (loop : Loop) (number start position : Nat)
  deriving DecidableEq, Repr

/-- Where the reader is, and how it got there. -/
structure Cursor where
  position : Nat
  /-- The number of rules `expression` and `factor` that are open. -/
  depth : Nat
  events : List Event
  deriving DecidableEq, Repr

/-- The steps of the reader. They end with a value or a fault, or they do not end. -/
abbrev Reader := ExceptT SyntaxFault (StateT Cursor Option)

namespace Reader

variable {α : Type}

/-- What is left to do when the clock has run out. -/
def outOfTime : Reader α :=
  ExceptT.mk fun _ => none

def position : Reader Nat := do
  return (← get).position

/-- The next token, which stays where it is. -/
def peek (tokens : List Token) : Reader (Option Token) := do
  return tokens[(← get).position]?

/-- Whether the next token is this character. -/
def sees (tokens : List Token) (c : Char) : Reader Bool := do
  return (← peek tokens) == some (.op c)

/-- Moves the cursor on. -/
def move (count : Nat) : Reader Unit :=
  modify fun c => { c with position := c.position + count }

/-- Adds to the list of what happens. -/
def record (event : Event) : Reader Unit :=
  modify fun c => { c with events := c.events ++ [event] }

/-- A closing parenthesis. -/
def close (tokens : List Token) : Reader Unit := do
  if ← sees tokens ')' then move 1 else throw .unclosed

/-- Follows a rule as one of those that are open, if there may be another one. It ends in the same way
whether it has read an expression or has met a fault. -/
def nested (rule : Reader Expr) : Reader Expr :=
  ExceptT.mk fun c =>
    let opened := { c with depth := c.depth + 1 }
    if maxNesting < opened.depth then
      some (.error .tooDeep, opened)
    else do
      let (outcome, after) ← rule.run { opened with events := opened.events ++ [.enter] }
      return (outcome, { after with depth := after.depth - 1, events := after.events ++ [.leave] })

end Reader

/-! ## Tasks -/

/-- The rules of the grammar. Sums and products are chains. -/
inductive Rule where
  | expression
  | assignment
  | chain (kind : Chain)
  | factor
  | power
  | atom
  deriving DecidableEq, Repr

/-- What the reader can be set to do. -/
inductive Task where
  | rule (rule : Rule)
  /-- To read a call, behind the name of the function. -/
  | call (function : String)
  /-- To go on with a chain, from the beginning of a round. -/
  | steps (kind : Chain) (number start : Nat) (left : Expr)
  /-- To go on with the arguments of a call, from the beginning of a round. -/
  | arguments (function : String) (number start : Nat) (before : List Expr)

/-- The rule for the operands of a chain. -/
def Chain.operand : Chain → Rule
  | .sum => .chain .product
  | .product => .factor

/-- The operator with which a further operand follows where this token is next, and how many tokens
there are to the operator. -/
def Chain.link? : Chain → Token → Option (BinaryOp × Nat)
  | .sum, .op '+' => some (.add, 1)
  | .sum, .op '-' => some (.sub, 1)
  | .product, .op '*' => some (.mul, 1)
  | .product, .op '/' => some (.div, 1)
  | .product, .op '%' => some (.rem, 1)
  | .product, .op '^' => some (.pow, 1)
  | .product, .op '(' => some (.mul, 0)
  | .product, .numeral _ => some (.mul, 0)
  | .product, .word _ => some (.mul, 0)
  | _, _ => none

/-- The sign that a token is. -/
def sign? : Token → Option UnaryOp
  | .op '-' => some .negate
  | .op '+' => some .keep
  | _ => none

open Reader in
/-- What a task consists of, given how the tasks that it sets are done. -/
def Task.body (library : Library) (tokens : List Token) (perform : Task → Reader Expr) :
    Task → Reader Expr
  | .rule .expression => nested (perform (.rule .assignment))
  | .rule .assignment => do
    let left ← perform (.rule (.chain .sum))
    if ← sees tokens '=' then
      move 1
      let right ← perform (.rule .expression)
      return .assign left right
    else
      return left
  | .rule (.chain kind) => do
    let start ← position
    let left ← perform (.rule kind.operand)
    perform (.steps kind 1 start left)
  | .steps kind number start left => do
    record (.round (.chain kind) number start (← position))
    match (← peek tokens).bind kind.link? with
    | none => return left
    | some (op, taken) =>
      move taken
      let right ← perform (.rule kind.operand)
      perform (.steps kind (number + 1) start (.binary op left right))
  | .rule .factor => nested do
    match (← peek tokens).bind sign? with
    | some op =>
      move 1
      let operand ← perform (.rule .factor)
      return .unary op operand
    | none => perform (.rule .power)
  | .rule .power => do
    let base ← perform (.rule .atom)
    if ← sees tokens '^' then
      move 1
      let exponent ← perform (.rule .factor)
      return .binary .pow base exponent
    else
      return base
  | .rule .atom => do
    match ← peek tokens with
    | none => throw .incomplete
    | some token =>
      move 1
      match token with
      | .numeral text => return .numeral text
      | .word text => if library.contains text then perform (.call text) else return .name text
      | .op c =>
        if c = '(' then
          let e ← perform (.rule .expression)
          close tokens
          return e
        else
          throw (.unexpected (.op c))
  | .call function => do
    let start ← position
    if ← sees tokens '(' then
      move 1
      if ← sees tokens ')' then
        close tokens
        return .call function []
      else
        perform (.arguments function 1 start [])
    else
      let operand ← perform (.rule .factor)
      return .call function [operand]
  | .arguments function number start before => do
    record (.round .arguments number start (← position))
    let e ← perform (.rule .expression)
    if ← sees tokens ',' then
      move 1
      perform (.arguments function (number + 1) start (before ++ [e]))
    else
      close tokens
      return .call function (before ++ [e])

/-- Performs a task, with no more than `clock` tasks under way inside one another. -/
def Task.perform (library : Library) (tokens : List Token) : Nat → Task → Reader Expr
  | 0, _ => Reader.outOfTime
  | clock + 1, task => task.body library tokens (perform library tokens clock)

/-- Reads all tokens as an expression. -/
def descend (library : Library) (tokens : List Token) (clock : Nat) : Reader Expr := do
  if maxTokens < tokens.length then
    throw (.tooLong tokens.length maxTokens)
  else
    let e ← (Task.rule .expression).perform library tokens clock
    match ← Reader.peek tokens with
    | none => return e
    | some token => throw (.unexpected token)

end Reckoner.Grammar
