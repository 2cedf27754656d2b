/-
The codec with which the program runs.

It writes plain documents, and reads every document of TOML. Reading is forgiving about what it does
not know: other keys are ignored, and a setting that is missing has its default. It is strict about
what it does know. The unit of angles is one of two words, or a table with one of the words as its only
key and nothing in it; the length of an entry is a whole number that is not negative.

Nothing that is said of settings in general depends on this codec. It is one of those that follow the
fields of settings.
-/
import Reckoner.Settings.Storage
import Reckoner.Toml.Document

set_option autoImplicit false

namespace Reckoner

/-- The unit that a word stands for. -/
def AngleMode.ofWord? (word : String) : Option AngleMode :=
  if word = AngleMode.degrees.word then some .degrees
  else if word = AngleMode.radians.word then some .radians
  else none

/-- Every unit is the one its own word stands for. -/
theorem AngleMode.ofWord?_word (mode : AngleMode) : AngleMode.ofWord? mode.word = some mode := by
  cases mode <;> decide

namespace Settings

/-! ## Reading -/

/-- Whether an item is an array or a table without anything in it. -/
def isEmptyItem : Toml.Item → Bool
  | .array items => items.isEmpty
  | .braces entries => entries.isEmpty
  | .table _ entries => entries.isEmpty
  | .tables items => items.isEmpty
  | _ => false

/-- The unit of angles that an item names. -/
def modeOfItem? : Toml.Item → Option AngleMode
  | .text word => AngleMode.ofWord? word
  | .braces [(word, item)] => if isEmptyItem item then AngleMode.ofWord? word else none
  | .table _ [(word, item)] => if isEmptyItem item then AngleMode.ofWord? word else none
  | _ => none

/-- The length that an item gives. -/
def lengthOfItem? : Toml.Item → Option Nat
  | .integer n => if 0 ≤ n then some n.toNat else none
  | _ => none

/-- The value of a setting in a document, or its default if the document does not have it. -/
def entry? {α : Type} (entries : Toml.Entries) (key : String) (default : α)
    (read? : Toml.Item → Option α) : Option α :=
  match entries.lookup key with
  | some item => read? item
  | none => some default

/-- The settings that a document gives. -/
def ofEntries? (entries : Toml.Entries) : Option Settings := do
  let standard : Settings := {}
  let mode ← entry? entries "mode_angle" standard.mode modeOfItem?
  let entryLimit ← entry? entries "chiffres_max" standard.entryLimit lengthOfItem?
  some { mode, entryLimit }

/-! ## The codec -/

/-- The codec with which the program runs. -/
def toml : Toml.Codec Settings where
  encode s := if s.entryLimit ≤ Toml.maxWhole then some (Toml.document s.fields) else none
  decode text := (Toml.ofText? text).bind ofEntries?

/-- The text of settings. -/
def toText (s : Settings) : Except SettingsError String :=
  s.encode toml

/-- The settings that a text gives. -/
def ofText (text : String) : Except SettingsError Settings :=
  decode toml text

/-- The settings of a file. -/
def load (location : Location) : Except SettingsError Settings :=
  loadBy toml location

/-- The place after the settings were written to a file there. -/
def save (s : Settings) (location : Location) : Except SettingsError Location :=
  let (outcome, after) := (s.writeBy toml).run location
  outcome.map fun () => after

end Settings
end Reckoner
