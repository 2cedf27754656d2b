/-
TOML documents as trees, and how the statements of a document build them.

A table can come about in three ways: it is defined, by a header of its own; it is implied, by a
longer header that passes through it; or it is dotted, by a key with points. How it came about
decides what may still be added to it. A header defines a table once and only if nothing but
headers has passed through it; a dotted key adds only to tables that dotted keys have made, on a
way that leads through no defined table. A table in braces is complete where it stands.
-/

set_option autoImplicit false

namespace Reckoner
namespace Toml

/-- How a table came about. -/
inductive Origin where
  | defined
  | implied
  | dotted
  deriving DecidableEq, Repr

/-- The things that a key can stand for. The tables of a list of tables are all defined ones. -/
inductive Item where
  | text (s : String)
  | integer (n : Int)
  | real (x : Float)
  | truth (b : Bool)
  | moment (lexeme : String)
  | array (items : List Item)
  | braces (entries : List (String × Item))
  | table (origin : Origin) (entries : List (String × Item))
  | tables (items : List (List (String × Item)))
  deriving Repr

/-- The entries of a table, in the order in which their keys first appear. -/
abbrev Entries := List (String × Item)

/-- Sets a key, in its place if it is there already and at the end if not. -/
def Entries.put (key : String) (item : Item) : Entries → Entries
  | [] => [(key, item)]
  | (k, i) :: rest => if k = key then (key, item) :: rest else (k, i) :: Entries.put key item rest

/-- Changes the table at the end of a path. What is missing on the way is made, as tables of
origin `made`. The way leads through tables, and through the last table of a list; a dotted way
leads through no defined table. -/
def Entries.alter (made : Origin) (change : Origin → Entries → Option (Origin × Entries)) :
    List String → Origin → Entries → Option (Origin × Entries)
  | [], origin, entries => change origin entries
  | key :: path, origin, entries => do
    let item ← match entries.lookup key with
      | none => do
        let (o, es) ← Entries.alter made change path made []
        some (Item.table o es)
      | some (.table o es) =>
        -- A header may pass through a defined table to define one inside it.
        if made = .dotted ∧ o = .defined then none
        else do
          let (o, es) ← Entries.alter made change path o es
          some (Item.table o es)
      | some (.tables items) => do
        let last ← items.getLast?
        let (_, es) ← Entries.alter made change path .defined last
        some (Item.tables (items.dropLast ++ [es]))
      | some _ => none
    some (origin, entries.put key item)

/-- Adds a key with points in front of it to a table. The key must be new, and the table that
the points lead to must be of their own making. -/
def Entries.addPair (path : List String) (key : String) (item : Item) (origin : Origin)
    (entries : Entries) : Option (Origin × Entries) :=
  Entries.alter .dotted (fun o es =>
    if path ≠ [] ∧ o ≠ .dotted then none
    else if (es.lookup key).isSome then none
    else some (o, es.put key item)) path origin entries

/-- Defines the table that a header names. -/
def Entries.openTable (path : List String) (key : String) (origin : Origin) (entries : Entries) :
    Option (Origin × Entries) :=
  Entries.alter .implied (fun o es =>
    match es.lookup key with
    | none => some (o, es.put key (.table .defined []))
    | some (.table .implied inner) => some (o, es.put key (.table .defined inner))
    | some _ => none) path origin entries

/-- Adds a table to the list of tables that a header names. -/
def Entries.openNext (path : List String) (key : String) (origin : Origin) (entries : Entries) :
    Option (Origin × Entries) :=
  Entries.alter .implied (fun o es =>
    match es.lookup key with
    | none => some (o, es.put key (.tables [[]]))
    | some (.tables items) => some (o, es.put key (.tables (items ++ [[]])))
    | some _ => none) path origin entries

/-! ## Statements -/

/-- What a line of a document says. A key is given by the part before its last point and the
part behind it. -/
inductive Statement where
  | pair (path : List String) (key : String) (item : Item)
  | header (path : List String) (key : String)
  | nextHeader (path : List String) (key : String)
  deriving Repr

/-- Adds what a statement says to a document. Pairs go to the table of the last header, which is
the second component. -/
def Statement.apply (statement : Statement) (state : Entries × List String) :
    Option (Entries × List String) :=
  let (entries, here) := state
  match statement with
  | .pair path key item => do
    let (_, entries) ← Entries.alter .implied (Entries.addPair path key item) here .defined entries
    some (entries, here)
  | .header path key => do
    let (_, entries) ← Entries.openTable path key .defined entries
    some (entries, path ++ [key])
  | .nextHeader path key => do
    let (_, entries) ← Entries.openNext path key .defined entries
    some (entries, path ++ [key])

/-- The table in braces that holds these pairs. -/
def bracesOfPairs (pairs : List (List String × String × Item)) : Option Item := do
  let (_, entries) ← pairs.foldlM
    (fun (state : Origin × Entries) pair => Entries.addPair pair.1 pair.2.1 pair.2.2 state.1 state.2)
    (.defined, [])
  some (.braces entries)

/-- The document that these statements build. -/
def documentOfStatements (statements : List Statement) : Option Entries := do
  let (entries, _) ← statements.foldlM (fun state statement => statement.apply state) ([], [])
  some entries

end Toml
end Reckoner
