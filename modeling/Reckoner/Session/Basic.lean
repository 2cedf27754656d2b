/-
A session: an entry being typed, a memory, the variables, and the last result.

Pressing a key maps a session to the next one. The equals key calculates the entry. If that
succeeds, the text of the result becomes the entry, and is `fresh`: the next digit starts over,
while an operator goes on from the result. If it fails, the word `Error` becomes the entry, and the
cause is remembered; the line of the last success stays where it is.

A session has one scope, which every calculation reads and writes, so variables live on from one
line to the next. Clearing the entry does not clear them.
-/
import Reckoner.Calculation
import Reckoner.Screen
import Reckoner.Session.Entry
import Reckoner.Settings.Basic

set_option autoImplicit false

namespace Reckoner

/-- The state of a session. -/
structure Session where
  entry : String := "0"
  /-- Whether the entry is a result, which the next digit replaces. -/
  fresh : Bool := true
  /-- The line of the last calculation that succeeded. -/
  history : String := ""
  /-- The cause of the last failure, until a calculation succeeds. -/
  lastError : Option Error := none
  memory : Float := 0
  scope : Scope := ∅
  settings : Settings := {}

/-- The keys of the calculator. -/
inductive Key where
  /-- A digit or the point. -/
  | digit (c : Char)
  /-- An operator, or the percent key. -/
  | operator (c : Char)
  /-- The name of a function with its parenthesis. -/
  | function (call : String)
  /-- A parenthesis, the comma, the equals sign or a letter. -/
  | symbol (text : String)
  | erase
  | clear
  | equals
  | memoryAdd
  | memorySubtract
  | memoryRecall
  /-- The choice of the unit of angles. -/
  | angle (mode : AngleMode)
  deriving DecidableEq, Repr

namespace Session

/-- A session in which nothing has been typed yet. -/
def start (settings : Settings) : Session :=
  { settings }

/-- What calculates the entries of a session. -/
def evaluator (s : Session) : Evaluator :=
  ⟨.standard, s.settings.mode⟩

/-- Edits the entry. -/
def edit (f : List Char → List Char) (s : Session) : Session :=
  { s with entry := String.ofList (f s.entry.toList), fresh := false }

/-- What the screen shows. -/
def screen (s : Session) : String :=
  screenText s.entry

/-! ## Calculating -/

/-- Shows that something failed. -/
def fail (s : Session) (error : Error) : Session :=
  { s with entry := failureText, fresh := true, lastError := some error }

/-- Calculates the entry, and shows the result or that there is none. -/
def calculate (s : Session) : Except Error Value × Session :=
  let line := preparedLine s.entry
  let (outcome, scope) := s.evaluator.calculate line s.scope
  -- The scope is kept in both cases: what was defined before a failure stays defined.
  let s := { s with scope }
  match outcome with
  | .ok value =>
    (.ok value,
      { s with
        entry := value.resultText
        history := line ++ " ="
        fresh := true
        lastError := none })
  | .error error => (.error error, s.fail error)

/-! ## Typing -/

/-- A digit or a point. On a fresh entry it starts a new one, where a point has a zero before it. -/
def pressDigit (s : Session) (c : Char) : Session :=
  if s.fresh then s.edit fun _ => if c = '.' then ['0', '.'] else [c]
  else s.edit (Entry.addDigit s.settings.entryLimit c)

/-- The percent key: a hundredth of the number that the entry starts with, if it starts with one.
What is shown then counts as a result. -/
def pressPercent (s : Session) : Session :=
  match Entry.leadingReal? s.entry.toList with
  | some x => { s with entry := realText (x / 100), fresh := true }
  | none => { s with fresh := true }

/-- An operator. On a failure it starts from zero. -/
def pressOperator (s : Session) (op : Char) : Session :=
  if op = '%' then s.pressPercent
  else s.edit fun cs => Entry.addOperator s.fresh op (if cs = failureText.toList then ['0'] else cs)

/-- Takes the entry away. The variables and the memory stay. -/
def clear (s : Session) : Session :=
  { s with entry := "0", history := "", lastError := none, fresh := true }

/-! ## Memory -/

/-- Changes the memory by the number that the entry is, if it is one. -/
def withMemory (s : Session) (change : Float → Float → Float) : Session :=
  match realOfText? s.entry.toList with
  | some x => { s with memory := change s.memory x }
  | none => s

/-- Makes the memory the entry. -/
def showMemory (s : Session) : Session :=
  { s with entry := realText s.memory, fresh := false }

/-! ## Keys -/

/-- The session after a key is pressed. -/
def press (s : Session) : Key → Session
  | .digit c => s.pressDigit c
  | .operator op => s.pressOperator op
  | .function call => s.edit (Entry.addFunction s.fresh call.toList)
  | .symbol text => s.edit (Entry.addSymbol text.toList)
  | .erase => s.edit (Entry.erase .standard)
  | .clear => s.clear
  | .equals => s.calculate.2
  | .memoryAdd => s.withMemory fun m x => m + x
  | .memorySubtract => s.withMemory fun m x => m - x
  | .memoryRecall => s.showMemory
  | .angle mode => { s with settings := { s.settings with mode } }

/-- The session after several keys. -/
def pressAll (s : Session) (keys : List Key) : Session :=
  keys.foldl press s

end Session
end Reckoner
