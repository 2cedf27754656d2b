/-
Values, statements and whole documents of TOML.

This is what the program's own codec reads with, at the edge of the program. Statements about settings
are about any codec, so they do not depend on how much of the language is read here.
-/
import Reckoner.Toml.Number

set_option autoImplicit false

namespace Reckoner
namespace Toml

/-! ## Values -/

/-- The items of an array, behind its opening bracket. Blanks, ends of lines and comments may
stand anywhere between, and a comma behind the last item. -/
def arrayRest? (value : Reading Item) : Nat → Reading (List Item)
  | 0, _ => none
  | fuel + 1, cs =>
    match skipFiller (cs.length + 1) cs with
    | ']' :: rest => some ([], rest)
    | cs => do
      let (item, cs) ← value cs
      match skipFiller (cs.length + 1) cs with
      | ',' :: rest => do
        let (items, rest) ← arrayRest? value fuel rest
        some (item :: items, rest)
      | ']' :: rest => some ([item], rest)
      | _ => none

/-- A key and its value, with an equals sign between. -/
def pair? (value : Reading Item) (cs : List Char) :
    Option ((List String × String × Item) × List Char) := do
  let ((path, key), cs) ← key? cs
  match cs with
  | '=' :: rest => do
    let (item, rest) ← value (skipSpaces rest)
    some ((path, key, item), rest)
  | _ => none

/-- The pairs of a table in braces, behind a brace or a comma. No comma may stand behind the
last. -/
def bracesRest? (value : Reading Item) : Nat → Reading (List (List String × String × Item))
  | 0, _ => none
  | fuel + 1, cs => do
    let (pair, cs) ← pair? value cs
    match skipSpaces cs with
    | ',' :: rest => do
      let (pairs, rest) ← bracesRest? value fuel rest
      some (pair :: pairs, rest)
    | '\x7d' :: rest => some ([pair], rest)
    | _ => none

/-- A table in braces, behind its opening brace. -/
def braces? (value : Reading Item) (cs : List Char) : Option (Item × List Char) :=
  match skipSpaces cs with
  | '\x7d' :: rest => some (.braces [], rest)
  | cs => do
    let (pairs, rest) ← bracesRest? value (cs.length + 1) cs
    let item ← bracesOfPairs pairs
    some (item, rest)

/-- A value that holds no others. -/
def scalar? (cs : List Char) : Option (Item × List Char) :=
  match cs with
  | 't' :: 'r' :: 'u' :: 'e' :: rest => some (.truth true, rest)
  | 'f' :: 'a' :: 'l' :: 's' :: 'e' :: rest => some (.truth false, rest)
  | c :: _ =>
    if c = '"' ∨ c = '\'' then do
      let (s, rest) ← string? cs
      some (.text (String.ofList s), rest)
    else if c = 'i' ∨ c = 'n' then realWord? [] cs
    else number? cs
  | [] => none

/-- A value in which at most `n` arrays and tables are one inside the other. -/
def value? : Nat → Reading Item
  | 0, cs =>
    match cs with
    | '[' :: _ => none
    | '\x7b' :: _ => none
    | _ => scalar? cs
  | n + 1, cs =>
    match cs with
    | '[' :: rest => do
      let (items, rest) ← arrayRest? (value? n) (rest.length + 1) rest
      some (.array items, rest)
    | '\x7b' :: rest => braces? (value? n) rest
    | _ => scalar? cs

/-! ## Statements -/

/-- A header, behind its opening bracket. -/
def header? : Reading Statement
  | '[' :: cs => do
    let ((path, key), cs) ← key? cs
    match cs with
    | ']' :: ']' :: rest => do
      let rest ← lineEnd? rest
      some (.nextHeader path key, rest)
    | _ => none
  | cs => do
    let ((path, key), cs) ← key? cs
    match cs with
    | ']' :: rest => do
      let rest ← lineEnd? rest
      some (.header path key, rest)
    | _ => none

/-- A header or a pair, with the rest of its line. -/
def statement? : Reading Statement
  | '[' :: cs => header? cs
  | cs => do
    let ((path, key, item), rest) ← pair? (value? maxDepth) cs
    let rest ← lineEnd? rest
    some (.pair path key item, rest)

/-- The statements of a text, to its end. -/
def statements? : Nat → List Char → Option (List Statement)
  | 0, _ => none
  | fuel + 1, cs =>
    match skipFiller (cs.length + 1) cs with
    | [] => some []
    | cs => do
      let (statement, rest) ← statement? cs
      let statements ← statements? fuel rest
      some (statement :: statements)

/-- The document of a text, if it is one. A byte order mark in front of it is ignored. -/
def ofText? (text : String) : Option Entries := do
  let cs := match text.toList with
    | '\ufeff' :: cs => cs
    | cs => cs
  let statements ← statements? (cs.length + 1) cs
  documentOfStatements statements

end Toml
end Reckoner
