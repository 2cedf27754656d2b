/-
The word for a failure, and what the keys make of it.

Of all that the keypad types and all that a calculation shows, only that word has a capital `E` in
it. So an entry that contains the word is an entry that a failed calculation has left, perhaps with
something added behind. Most keys replace the word. A closing parenthesis, a comma and an equals
sign do not: they are added to it as they are to a zero. In a run where none of the three is pressed
on a failure, the word is always the whole entry, and its cause is that of the last calculation.
-/
import Reckoner.Proofs.Session.Keypad
import Reckoner.Proofs.Session.Results
import Reckoner.Proofs.Value.Screen

set_option autoImplicit false

namespace Reckoner

/-! ## The letter -/

namespace Key

/-- The symbols that need something in front of them. -/
def needsOperand (key : Key) : Bool :=
  key ∈ [.symbol ")", .symbol ",", .symbol "="]

end Key

/-- The letter by which the word for a failure is told from all other texts. -/
def failureLetter : Char := 'E'

/-! ## Texts without the letter -/

theorem failureLetter_not_mem_zero : failureLetter ∉ "0".toList := by
  decide

/-- The words for reals have other capital letters. -/
theorem failureLetter_not_mem_realText (x : Float) : failureLetter ∉ (realText x).toList := by
  intro h
  rcases mem_realText h with hc | hc | hc | hc
  all_goals exact absurd hc (by decide)

theorem failureLetter_not_mem_resultText (v : Value) : failureLetter ∉ v.resultText.toList := by
  intro h
  rcases Value.mem_resultText h with hc | hc | hc | hc
  all_goals exact absurd hc (by decide)

theorem failureLetter_not_mem_call {call : String} (h : (Key.function call).OnKeypad) :
    failureLetter ∉ call.toList := by
  intro hmem
  exact bne_iff_ne.mp (h.forall_mem_call (p := (· != failureLetter)) (by decide) _ hmem) rfl

theorem ne_failureLetter_of_digit {c : Char} (h : (Key.digit c).OnKeypad) : c ≠ failureLetter := by
  rintro rfl
  exact absurd h (by unfold Key.OnKeypad; decide)

/-- Where the word is, there is its letter. -/
theorem failureLetter_mem_of_occursIn {cs : List Char}
    (h : Screen.occursIn failureText.toList cs = true) : failureLetter ∈ cs :=
  Screen.mem_of_occursIn h

/-! ## What the keys add to an entry -/

namespace Entry

variable {cs : List Char} {c d : Char}

/-- The characters of an entry are those that it had before and those that the key adds. Each kind of
key has a lemma of its own. -/
theorem mem_addDigit {limit : Nat} (h : d ∈ addDigit limit c cs) : d = c ∨ d ∈ cs := by
  unfold addDigit at h
  split_ifs at h
  · exact Or.inr h
  · exact Or.inr h
  · exact Or.inl (List.mem_singleton.mp h)
  · rcases List.mem_append.mp h with h | h
    · exact Or.inr h
    · exact Or.inl (List.mem_singleton.mp h)

theorem mem_addOperator {fresh : Bool} (h : d ∈ addOperator fresh c cs) : d = c ∨ d ∈ cs := by
  have happend : ∀ rest : List Char, (d ∈ rest → d ∈ cs) → d ∈ rest ++ [c] → d = c ∨ d ∈ cs := by
    intro rest hrest h
    rcases List.mem_append.mp h with h | h
    · exact Or.inr (hrest h)
    · exact Or.inl (List.mem_singleton.mp h)
  have hdrop : d ∈ dropOperators cs → d ∈ cs := by
    intro h
    exact List.mem_reverse.mp ((List.dropWhile_suffix _).subset (List.mem_reverse.mp h))
  unfold addOperator at h
  split at h
  · split_ifs at h
    · exact happend cs id h
    · exact happend _ hdrop h
  · exact happend cs id h

/-- A function may put a `*` in front of itself. -/
theorem mem_addFunction {fresh : Bool} {call : List Char} (h : d ∈ addFunction fresh call cs) :
    d = '*' ∨ d ∈ call ∨ d ∈ cs := by
  unfold addFunction at h
  dsimp only at h
  split_ifs at h
  · exact Or.inr (Or.inl h)
  · rcases List.mem_append.mp h with h | h
    · exact Or.inr (Or.inr h)
    rcases List.mem_cons.mp h with h | h
    · exact Or.inl h
    · exact Or.inr (Or.inl h)
  · rcases List.mem_append.mp h with h | h
    · exact Or.inr (Or.inr h)
    · exact Or.inr (Or.inl h)

theorem mem_addSymbol {symbol : List Char} (h : d ∈ addSymbol symbol cs) :
    d ∈ symbol ∨ d ∈ cs := by
  unfold addSymbol at h
  split_ifs at h
  · exact Or.inl h
  · rcases List.mem_append.mp h with h | h
    · exact Or.inr h
    · exact Or.inl h

/-- Erasing adds nothing but the zero of an entry that would be empty. -/
theorem mem_erase {library : Library} (h : d ∈ erase library cs) : d = '0' ∨ d ∈ cs := by
  unfold erase at h
  split_ifs at h
  · exact Or.inl (List.mem_singleton.mp h)
  · split at h
    · exact Or.inl (List.mem_singleton.mp h)
    · exact Or.inr (List.mem_of_mem_take h)

end Entry

/-! ## One key -/

namespace Session

variable {s : Session} {key : Key}

/-- No key but the equals key makes an entry with the letter out of one without it. -/
theorem failureLetter_not_mem_press (hkey : key.OnKeypad) (hequals : key ≠ .equals)
    (hs : failureLetter ∉ s.entry.toList) : failureLetter ∉ (s.press key).entry.toList := by
  refine s.press_entry key (motive := fun cs => failureLetter ∉ cs) hs (by decide)
    failureLetter_not_mem_realText (fun h => absurd h hequals) (fun h => absurd h hequals)
    ?restart ?digit ?operator ?function ?symbol ?erase
  case restart =>
    rintro c rfl
    have hc := ne_failureLetter_of_digit hkey
    split_ifs
    · decide
    · exact fun h => hc (List.mem_singleton.mp h).symm
  case digit =>
    rintro c rfl h
    rcases Entry.mem_addDigit h with h | h
    · exact ne_failureLetter_of_digit hkey h.symm
    · exact hs h
  case operator =>
    rintro op cs rfl - hcs h
    have hoperator : Entry.isOperator op = true := hkey
    rcases Entry.mem_addOperator h with rfl | h
    · exact absurd hoperator (by decide)
    rcases hcs with rfl | rfl
    · exact hs h
    · exact absurd h (by decide)
  case function =>
    rintro call rfl h
    rcases Entry.mem_addFunction h with h | h | h
    · exact absurd h (by decide)
    · exact failureLetter_not_mem_call hkey h
    · exact hs h
  case symbol =>
    rintro text rfl h
    rcases Entry.mem_addSymbol h with h | h
    · exact bne_iff_ne.mp (hkey.forall_mem_symbol (p := (· != failureLetter)) (by decide) _ h) rfl
    · exact hs h
  case erase =>
    exact fun h => (Entry.mem_erase h).elim (by decide) hs

/-- A failure is replaced by what is typed, or stays as it is. -/
theorem press_failure (hkey : key.OnKeypad) (hequals : key ≠ .equals)
    (hneeds : key.needsOperand = false) (hentry : s.entry = failureText) (hfresh : s.fresh = true) :
    failureLetter ∉ (s.press key).entry.toList ∨
      (s.press key).entry = failureText ∧ (s.press key).fresh = true ∧
        (s.press key).lastError = s.lastError := by
  cases key with
  | digit c =>
    refine Or.inl ?_
    rw [press, pressDigit, if_pos hfresh, toList_entry_edit]
    split_ifs
    · decide
    · intro h
      rw [← List.mem_singleton.mp h] at hkey
      exact absurd hkey (by unfold Key.OnKeypad; decide)
  | operator op =>
    rw [press, pressOperator]
    split_ifs with hpercent
    · -- No beginning of the word is a number.
      have hnone : Entry.leadingReal? failureText.toList = none := by rfl
      rw [pressPercent, hentry, hnone]
      exact Or.inr ⟨rfl, rfl, rfl⟩
    · refine Or.inl ?_
      rw [toList_entry_edit, hentry, if_pos rfl]
      intro h
      rcases Entry.mem_addOperator h with rfl | h
      · exact absurd hkey (by unfold Key.OnKeypad; decide)
      · exact absurd h (by decide)
  | function call =>
    refine Or.inl ?_
    rw [press, toList_entry_edit, hentry, Entry.addFunction, if_pos (by decide)]
    exact failureLetter_not_mem_call hkey
  | symbol text =>
    refine Or.inl ?_
    rw [press, toList_entry_edit, hentry]
    -- What is left of the symbols when the three are taken away.
    rcases List.mem_cons.mp hkey with rfl | hkey
    · decide
    rcases List.mem_cons.mp hkey with rfl | hkey
    · exact absurd hneeds (by decide)
    rcases List.mem_cons.mp hkey with rfl | hkey
    · exact absurd hneeds (by decide)
    rcases List.mem_cons.mp hkey with rfl | hkey
    · exact absurd hneeds (by decide)
    · rw [List.mem_singleton.mp hkey]
      decide
  | erase =>
    refine Or.inl ?_
    rw [press, toList_entry_edit, hentry, Entry.erase, if_pos rfl]
    decide
  | clear => exact Or.inl failureLetter_not_mem_zero
  | equals => exact absurd rfl hequals
  | memoryAdd =>
    rw [press, withMemory]
    split
    · exact Or.inr ⟨hentry, hfresh, rfl⟩
    · exact Or.inr ⟨hentry, hfresh, rfl⟩
  | memorySubtract =>
    rw [press, withMemory]
    split
    · exact Or.inr ⟨hentry, hfresh, rfl⟩
    · exact Or.inr ⟨hentry, hfresh, rfl⟩
  | memoryRecall => exact Or.inl (failureLetter_not_mem_realText _)
  | angle mode => exact Or.inr ⟨hentry, hfresh, rfl⟩

/-! ## Runs -/

/-- A session shows the failure of the last calculation of a run. -/
def ShowsFailure (start : Session) (keys : List Key) : Prop :=
  (start.pressAll keys).entry = failureText ∧ (start.pressAll keys).fresh = true ∧
    ∃ before after error, keys = before ++ .equals :: after ∧ .equals ∉ after ∧
      (start.pressAll before).calculate.1 = .error error ∧
      (start.pressAll keys).lastError = some error

/-- No symbol that needs an operand is pressed on a failure. -/
def SparesFailure (start : Session) (keys : List Key) : Prop :=
  ∀ before key after, keys = before ++ key :: after →
    (start.pressAll before).entry = failureText → key.needsOperand = false

/-- What every such run keeps: the entry is without the letter, or a failure is shown. -/
theorem failureLetter_not_mem_or_showsFailure {start : Session}
    (hstart : failureLetter ∉ start.entry.toList) {keys : List Key}
    (hkeypad : ∀ key ∈ keys, key.OnKeypad) (hspares : start.SparesFailure keys) :
    failureLetter ∉ (start.pressAll keys).entry.toList ∨ start.ShowsFailure keys := by
  -- From the end, since the last key is the last step.
  induction keys using List.reverseRecOn with
  | nil => exact Or.inl hstart
  | append_singleton keys key ih =>
    have hkey : key.OnKeypad := hkeypad key (by simp)
    have hspares' : start.SparesFailure keys := by
      intro before key' after hkeys
      exact hspares before key' (after ++ [key]) (by rw [hkeys]; simp)
    have ih := ih (fun key' hmem => hkeypad key' (List.mem_append_left _ hmem)) hspares'
    rw [ShowsFailure, pressAll_concat]
    by_cases hequals : key = .equals
    · -- A calculation decides anew, whatever was shown before it.
      subst hequals
      rw [press]
      rcases calculate_cases (start.pressAll keys) with
        ⟨value, scope, -, hcalculate⟩ | ⟨error, scope, hcalculate⟩
      · rw [hcalculate]
        exact Or.inl (failureLetter_not_mem_resultText value)
      · refine Or.inr ⟨?_, ?_, keys, [], error, rfl, List.not_mem_nil, ?_, ?_⟩
        all_goals rw [hcalculate]
        all_goals rfl
    · rcases ih with hnone | ⟨hentry, hfresh, before, after, error, hkeys, hafter, hcause, hlast⟩
      · exact Or.inl (failureLetter_not_mem_press hkey hequals hnone)
      · have hneeds : key.needsOperand = false := hspares keys key [] rfl hentry
        rcases press_failure hkey hequals hneeds hentry hfresh with
          hnone | ⟨hentry', hfresh', hlast'⟩
        · exact Or.inl hnone
        · refine Or.inr ⟨hentry', hfresh', before, after ++ [key], error, ?_, ?_, hcause,
            hlast'.trans hlast⟩
          · rw [hkeys, List.append_assoc, List.cons_append]
          · rw [List.mem_append, List.mem_singleton, not_or]
            exact ⟨hafter, Ne.symm hequals⟩

/-- **The word for a failure stands alone.** In a run of the keypad that spares failures, an entry
that contains the word is just the word, the next digit replaces it, and the cause that is
remembered is the error of the last calculation. -/
theorem failure_stands_alone (settings : Settings) {keys : List Key}
    (hkeypad : ∀ key ∈ keys, key.OnKeypad) (hspares : (start settings).SparesFailure keys)
    (herror : Screen.occursIn failureText.toList ((start settings).pressAll keys).entry.toList =
      true) :
    (start settings).ShowsFailure keys := by
  have hmem := failureLetter_mem_of_occursIn herror
  rcases failureLetter_not_mem_or_showsFailure failureLetter_not_mem_zero hkeypad hspares with
    hnone | hshows
  · exact absurd hmem hnone
  · exact hshows

/-- One divided by zero. Adding the failure to the memory and taking a hundredth of it leave it as
it is. -/
theorem failure_stands_alone_divided_by_zero :
    (start {}).ShowsFailure
      [.digit '1', .operator '/', .digit '0', .equals, .memoryAdd, .operator '%'] := by
  have hkeypad : ∀ key ∈ ([.digit '1', .operator '/', .digit '0', .equals, .memoryAdd,
      .operator '%'] : List Key), key.OnKeypad := by decide
  have hneeds : ∀ key ∈ ([.digit '1', .operator '/', .digit '0', .equals, .memoryAdd,
      .operator '%'] : List Key), key.needsOperand = false := by decide
  refine failure_stands_alone {} hkeypad ?_ (by decide +kernel)
  intro before key after hkeys _
  exact hneeds key (by rw [hkeys]; simp)

/-- A parenthesis on the same failure is added to the word, and then the next digit is as well. -/
theorem failure_extended_by_parenthesis :
    let keys : List Key := [.digit '1', .operator '/', .digit '0', .equals, .symbol ")"]
    (∀ key ∈ keys, key.OnKeypad) ∧
      Screen.occursIn failureText.toList ((start {}).pressAll keys).entry.toList = true ∧
      ((start {}).pressAll keys).entry = "Error)" ∧ ((start {}).pressAll keys).fresh = false ∧
      (Key.digit '2').OnKeypad ∧
      (((start {}).pressAll keys).press (.digit '2')).entry = "Error)2" := by
  intro keys
  exact ⟨by decide, by decide +kernel, by decide +kernel, by decide +kernel, by decide,
    by decide +kernel⟩

end Session
end Reckoner
