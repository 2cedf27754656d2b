/-
Settings that were saved are the settings that are loaded.

This holds with every codec that follows the fields of settings, so nothing but the promises of the
format goes into it: the fields are plain, what is written for them is a document of theirs, and a
document of theirs is read as the settings. The only length that has no text is one beyond the whole
numbers of the format. Then nothing has happened to the place when that is found out, whether there was
a file, room for one, or neither.

The codec with which the program runs is one of them.
-/
import Reckoner.Proofs.Toml.Codec
import Reckoner.Proofs.Toml.Documents
import Reckoner.Settings.File

set_option autoImplicit false

namespace Reckoner.Settings

/-! ## Fields -/

/-- The keys and words of settings need no quoting. -/
theorem plain_fields (s : Settings) : s.fields.Plain where
  key_ne_nil := by
    rw [fields]
    simp
  key_bare := by
    -- As checks of the two keys: a statement about all characters would be decided by trying each.
    have hmode : "mode_angle".toList.all (fun c => c.isAlphanum || c == '_') = true := by decide
    have hlength : "chiffres_max".toList.all (fun c => c.isAlphanum || c == '_') = true := by
      decide
    intro field hfield c hc
    rw [fields, List.mem_cons, List.mem_singleton] at hfield
    rcases hfield with rfl | rfl
    · simpa using List.all_eq_true.mp hmode c hc
    · simpa using List.all_eq_true.mp hlength c hc
  keys_nodup := by
    rw [fields]
    simp
  word_bare key text hfield := by
    have hword : ∀ mode : AngleMode, mode.word.toList.all Char.isAlphanum = true := by
      intro mode
      cases mode <;> decide
    obtain rfl : text = s.mode.word := by
      simp only [fields, List.mem_cons, Prod.mk.injEq, Toml.Scalar.word.injEq, List.not_mem_nil,
        or_false, reduceCtorEq, and_false] at hfield
      exact hfield.2
    exact List.all_eq_true.mp (hword s.mode)

/-- Only the length can be too large for the format. -/
theorem fits_fields_iff (s : Settings) :
    (∀ field ∈ s.fields, field.2.Fits) ↔ s.entryLimit ≤ 2 ^ 63 - 1 := by
  have hlimit : Toml.maxWhole = 2 ^ 63 - 1 := rfl
  rw [fields, List.forall_mem_cons, List.forall_mem_singleton, ← hlimit]
  exact and_iff_right trivial

/-! ## Files -/

section Files

variable {c : Toml.Codec Settings} {s : Settings}

theorem loadBy_toUTF8 (text : String) : loadBy c (.file text.toUTF8) = decode c text := by
  have hdecoded : String.fromUTF8? text.toUTF8 = some text := dif_pos text.isValidUTF8
  rw [loadBy, hdecoded]

/-- A text that can be made is written wherever there can be a file. -/
theorem run_writeBy_of_ok {text : String} (h : s.encode c = .ok text) {location : Location}
    (hplace : location ≠ .nowhere) :
    (s.writeBy c).run location = (.ok (), .file text.toUTF8) := by
  rw [writeBy, h]
  cases location with
  | nowhere => exact absurd rfl hplace
  | free => rfl
  | file bytes => rfl

/-- Where no text can be made, the place is not touched. -/
theorem run_writeBy_of_error {error : SettingsError} (h : s.encode c = .error error)
    (location : Location) : (s.writeBy c).run location = (.error error, location) := by
  rw [writeBy, h]
  rfl

end Files

/-! ## The codec of the program -/

/-- A document of the entries of settings gives the settings. -/
theorem ofEntries?_fields (s : Settings) :
    ofEntries? (s.fields.map fun field => (field.1, field.2.item)) = some s := by
  have hmode : modeOfItem? (.text s.mode.word) = some s.mode := s.mode.ofWord?_word
  have hlength : lengthOfItem? (.integer s.entryLimit) = some s.entryLimit := by
    simp [lengthOfItem?]
  simp [ofEntries?, entry?, fields, Toml.Scalar.item, List.lookup_cons, hmode, hlength]

/-- The codec with which the program runs follows the fields of settings. -/
theorem toml_follows : toml.Follows fields where
  encode_of_fits s _ hfits := if_pos ((fits_fields_iff s).mp hfits)
  encode_of_not_fits s hnot := by
    obtain ⟨field, hfield, hnot⟩ := hnot
    exact if_neg fun hle => hnot ((fits_fields_iff s).mpr hle field hfield)
  decode_of_document s text hplain hdoc := by
    show (Toml.ofText? text).bind ofEntries? = some s
    rw [Toml.ofText?_document hdoc hplain, Option.bind_some, ofEntries?_fields]

/-! ## Saving -/

/-- **Settings survive saving.** Settings whose length is a signed number of 64 bits have a text, the
text gives them again, and so does the file wherever one can be written. Longer ones have no text, and
an attempt to write them changes nothing. -/
theorem survive_saving {c : Toml.Codec Settings} (hc : c.Follows fields) (s : Settings) :
    (s.entryLimit ≤ 2 ^ 63 - 1 →
      ∃ text, s.encode c = .ok text ∧ decode c text = .ok s ∧
        ∀ location, location ≠ Location.nowhere →
          ∃ after, (s.writeBy c).run location = (.ok (), after) ∧ loadBy c after = .ok s) ∧
    (2 ^ 63 - 1 < s.entryLimit →
      s.encode c = .error .unwritable ∧
        ∀ location, (s.writeBy c).run location = (.error .unwritable, location)) := by
  refine ⟨fun h => ?_, fun h => ?_⟩
  · obtain ⟨text, hwritten, hread⟩ := hc.decode_encode s.plain_fields ((fits_fields_iff s).mpr h)
    have hencode : s.encode c = .ok text := by
      rw [encode, hwritten]
    have hdecode : decode c text = .ok s := by
      rw [decode, hread]
    refine ⟨text, hencode, hdecode, fun location hplace =>
      ⟨_, run_writeBy_of_ok hencode hplace, ?_⟩⟩
    rw [loadBy_toUTF8, hdecode]
  · have hnot : ¬∀ field ∈ s.fields, field.2.Fits :=
      fun hfits => Nat.not_le_of_lt h ((fits_fields_iff s).mp hfits)
    have hnone : c.encode s = none := hc.encode_of_not_fits s (by simpa using hnot)
    have hencode : s.encode c = .error .unwritable := by
      rw [encode, hnone]
    exact ⟨hencode, run_writeBy_of_error hencode⟩

/-- The greatest length that the program saves, and the next one. -/
theorem survive_saving_to_the_limit :
    let s : Settings := { mode := .radians, entryLimit := 2 ^ 63 - 1 }
    let beyond : Settings := { mode := .radians, entryLimit := 2 ^ 63 }
    toml.Follows fields ∧
      (∃ after, (s.writeBy toml).run .free = (.ok (), after) ∧ loadBy toml after = .ok s) ∧
      (beyond.writeBy toml).run .free = (.error .unwritable, .free) := by
  intro s beyond
  obtain ⟨text, -, -, hsaved⟩ := (survive_saving toml_follows s).1 (Nat.le_refl _)
  have hbeyond := (survive_saving toml_follows beyond).2 (by decide)
  exact ⟨toml_follows, hsaved .free nofun, hbeyond.2 .free⟩

/-- The text of the settings that nobody has changed. -/
example : ({} : Settings).toText = .ok "mode_angle = \"degres\"\nchiffres_max = 100\n" := by
  decide

end Reckoner.Settings
