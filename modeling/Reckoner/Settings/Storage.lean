/-
Settings as a text, and as a file.

The text is a TOML document with one field for each setting, under the names that the fields are
declared with, and with the unit of angles as a word in small letters. It is written and read by a
codec for settings, which is a parameter: what a codec does is not up to this program. The program
decides what its failures mean, and in which order it turns to the codec and to the file.

The text is made before the file is touched, so a failure to make it leaves the place as it was.
-/
import Reckoner.Settings.Basic
import Reckoner.Toml.Codec

set_option autoImplicit false

namespace Reckoner

/-- Why settings could not be read or written. -/
inductive SettingsError where
  /-- The file is missing, cannot be made, or is no text. -/
  | file
  /-- The text is no document, or a setting in it has no such value. -/
  | unreadable
  /-- A setting is too large to be written. -/
  | unwritable
  deriving DecidableEq, Repr

/-! ## Fields -/

/-- The word that stands for a unit in settings. -/
def AngleMode.word : AngleMode → String
  | .degrees => "degres"
  | .radians => "radians"

/-- The fields of settings, in the order of their declaration. -/
def Settings.fields (s : Settings) : Toml.Fields :=
  [("mode_angle", .word s.mode.word), ("chiffres_max", .whole s.entryLimit)]

/-! ## Text -/

namespace Settings

/-- The text of settings. -/
def encode (c : Toml.Codec Settings) (s : Settings) : Except SettingsError String :=
  match c.encode s with
  | some text => .ok text
  | none => .error .unwritable

/-- The settings that a text gives. -/
def decode (c : Toml.Codec Settings) (text : String) : Except SettingsError Settings :=
  match c.decode text with
  | some s => .ok s
  | none => .error .unreadable

end Settings

/-! ## Files -/

/-- A place where a file can be: in no directory, in a directory without it, or there. -/
inductive Location where
  | nowhere
  | free
  | file (bytes : ByteArray)

namespace Settings

/-- The settings of a file. -/
def loadBy (c : Toml.Codec Settings) : Location → Except SettingsError Settings
  | .nowhere => .error .file
  | .free => .error .file
  | .file bytes =>
    match String.fromUTF8? bytes with
    | some text => decode c text
    | none => .error .file

/-- Writes the settings to a file at the place that is the state. Their text is made first. -/
def writeBy (c : Toml.Codec Settings) (s : Settings) :
    ExceptT SettingsError (StateM Location) Unit := do
  let text ← s.encode c
  match ← get with
  | .nowhere => throw .file
  | .free | .file _ => set (Location.file text.toUTF8)

end Settings
end Reckoner
