/-
The keypad: which keys it has, and what one of them makes of the entry.

A key replaces the entry, edits its text, or leaves it alone. What holds of the entry in every run of
the keypad is shown for each of the texts that a key can leave, by `press_entry`, and then goes from
one key to the next.
-/
import Mathlib.Data.List.DropRight
import Reckoner.Proofs.Session.Results

set_option autoImplicit false

namespace Reckoner

/-! ## Keys -/

namespace Key

/-- Whether the keypad has a key for this. -/
def OnKeypad : Key → Prop
  | .digit c => c.isDigit = true ∨ c = '.'
  | .operator op => Entry.isOperator op = true
  | .function call => ∃ name ∈ Library.standard.names, call = name ++ "("
  | .symbol text => text ∈ ["(", ")", ",", "=", "x"]
  | .erase | .clear | .equals | .memoryAdd | .memorySubtract | .memoryRecall | .angle _ => True

instance (key : Key) : Decidable key.OnKeypad :=
  match key with
  | .digit c => inferInstanceAs (Decidable (c.isDigit = true ∨ c = '.'))
  | .operator op => inferInstanceAs (Decidable (Entry.isOperator op = true))
  | .function call =>
    inferInstanceAs (Decidable (∃ name ∈ Library.standard.names, call = name ++ "("))
  | .symbol text => inferInstanceAs (Decidable (text ∈ ["(", ")", ",", "=", "x"]))
  | .erase | .clear | .equals | .memoryAdd | .memorySubtract | .memoryRecall | .angle _ =>
    isTrue trivial

variable {p : Char → Bool}

/-- What holds of all characters of the function keys holds of those of one key. -/
theorem OnKeypad.forall_mem_call {call : String} (h : (function call).OnKeypad)
    (hall : Library.standard.names.all (fun name => (name ++ "(").toList.all p) = true) :
    ∀ c ∈ call.toList, p c = true := by
  obtain ⟨name, hname, rfl⟩ := h
  exact List.all_eq_true.mp (List.all_eq_true.mp hall name hname)

/-- What holds of all characters of the symbol keys holds of those of one key. -/
theorem OnKeypad.forall_mem_symbol {text : String} (h : (symbol text).OnKeypad)
    (hall : ["(", ")", ",", "=", "x"].all (fun text => text.toList.all p) = true) :
    ∀ c ∈ text.toList, p c = true :=
  List.all_eq_true.mp (List.all_eq_true.mp hall text h)

end Key

/-! ## Texts of entries -/

namespace Entry

theorem isOperator_of_isAlphanum {c : Char} (h : c.isAlphanum = true ∨ c = '.') :
    isOperator c = false := by
  refine Bool.eq_false_iff.mpr fun hop => ?_
  have hmem : c ∈ ['+', '-', '*', '/', '%', '^'] := of_decide_eq_true hop
  have hall : ['+', '-', '*', '/', '%', '^'].all (fun c => !(c.isAlphanum || c == '.')) = true := by
    decide
  have hnot := List.all_eq_true.mp hall c hmem
  rcases h with h | rfl
  · rw [h] at hnot
    exact absurd hnot Bool.false_ne_true
  · exact absurd hop (by decide)

theorem isOperator_of_isDigit {c : Char} (h : c.isDigit = true) : isOperator c = false :=
  isOperator_of_isAlphanum (Or.inl (isAlphanum_of_isDigit h))

theorem operatorsAtEnd_concat (cs : List Char) (c : Char) :
    operatorsAtEnd (cs ++ [c]) = if isOperator c = true then operatorsAtEnd cs ++ [c] else [] :=
  List.rtakeWhile_concat isOperator cs c

/-- Without the operators at its end, a text is a beginning of itself. -/
theorem prefix_dropOperators (cs : List Char) : dropOperators cs <+: cs :=
  List.rdropWhile_prefix isOperator cs

/-- Erasing leaves a beginning of the text, or a zero. -/
theorem erase_prefix_or_zero (library : Library) (cs : List Char) :
    erase library cs <+: cs ∨ erase library cs = ['0'] := by
  unfold erase
  split_ifs
  · exact Or.inr rfl
  · split
    · exact Or.inr rfl
    · exact Or.inl (List.take_prefix _ _)

end Entry

/-! ## One key -/

namespace Session

theorem toList_entry_edit (f : List Char → List Char) (s : Session) :
    (s.edit f).entry.toList = f s.entry.toList :=
  String.toList_ofList

/-- The texts that a key can leave in the entry. -/
theorem press_entry (s : Session) (key : Key) {motive : List Char → Prop}
    (same : motive s.entry.toList)
    (zero : motive ['0'])
    (real : ∀ x : Float, motive (realText x).toList)
    (result : key = .equals → ∀ value : Value, motive value.resultText.toList)
    (failure : key = .equals → motive failureText.toList)
    (restart : ∀ c, key = .digit c → motive (if c = '.' then ['0', '.'] else [c]))
    (digit : ∀ c, key = .digit c →
      motive (Entry.addDigit s.settings.entryLimit c s.entry.toList))
    (operator : ∀ op cs, key = .operator op → op ≠ '%' → cs = s.entry.toList ∨ cs = ['0'] →
      motive (Entry.addOperator s.fresh op cs))
    (function : ∀ call, key = .function call →
      motive (Entry.addFunction s.fresh call.toList s.entry.toList))
    (symbol : ∀ text, key = .symbol text → motive (Entry.addSymbol text.toList s.entry.toList))
    (erase : motive (Entry.erase .standard s.entry.toList)) :
    motive (s.press key).entry.toList := by
  cases key with
  | digit c =>
    rw [press, pressDigit]
    by_cases hfresh : s.fresh = true
    · rw [if_pos hfresh, toList_entry_edit]
      exact restart c rfl
    · rw [if_neg hfresh, toList_entry_edit]
      exact digit c rfl
  | operator op =>
    rw [press, pressOperator]
    split_ifs with hpercent
    · rw [pressPercent]
      split
      · exact real _
      · exact same
    · rw [toList_entry_edit]
      refine operator op _ rfl hpercent ?_
      split_ifs
      · exact Or.inr rfl
      · exact Or.inl rfl
  | function call =>
    rw [press, toList_entry_edit]
    exact function call rfl
  | symbol text =>
    rw [press, toList_entry_edit]
    exact symbol text rfl
  | erase =>
    rw [press, toList_entry_edit]
    exact erase
  | clear =>
    have hentry : (s.press .clear).entry = "0" := rfl
    rw [hentry]
    exact zero
  | equals =>
    rw [press]
    rcases s.calculate_cases with ⟨value, after, -, hcalculate⟩ | ⟨error, after, hcalculate⟩
    · rw [hcalculate]
      exact result rfl value
    · rw [hcalculate]
      exact failure rfl
  | memoryAdd | memorySubtract =>
    rw [press, withMemory]
    split
    · exact same
    · exact same
  | memoryRecall => exact real _
  | angle mode => exact same

/-! ## Runs -/

theorem pressAll_concat (s : Session) (keys : List Key) (key : Key) :
    s.pressAll (keys ++ [key]) = (s.pressAll keys).press key := by
  rw [pressAll, List.foldl_append]
  rfl

end Session
end Reckoner
