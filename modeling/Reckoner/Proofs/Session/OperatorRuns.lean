/-
The operators at the end of the entry.

An operator takes the place of those at the end of the entry, except that a minus may follow another
operator as a sign. So at most two operators stand at the end. Erasing shows what was typed before,
so more has to be kept than that: it holds at the end of every beginning of the entry.

On a fresh entry an operator replaces nothing, since a result ends with no operator. But the percent
key makes an entry fresh as well, also one that begins with no number, which it leaves as it is. An
operator that is then pressed is added to whatever stands at the end. If this is a single operator and
no minus, a minus is added to it as a sign, as it would have been otherwise. Any other operator is one
too many. So the operators at the end are as they should be all along a run exactly if none of these is
pressed behind such a percent key.
-/
import Reckoner.Proofs.Session.Keypad

set_option autoImplicit false

namespace Reckoner

/-! ## Operators at the end of a text -/

namespace Entry

/-- The operators that may stand at the end: none, a single one, or a minus behind another one. -/
def IsOperatorRun (run : List Char) : Prop :=
  run = [] ∨ (∃ op, run = [op]) ∨ ∃ op, op ≠ '-' ∧ run = [op, '-']

/-- Whether a minus would be a sign: behind a single operator that is no minus. -/
def TakesSign (cs : List Char) : Prop :=
  ∃ last, last ≠ '-' ∧ operatorsAtEnd cs = [last]

/-- Whether every beginning of a text ends with operators that may stand there. -/
def RunsSettled (cs : List Char) : Prop :=
  ∀ front, front <+: cs → IsOperatorRun (operatorsAtEnd front)

variable {cs text : List Char} {c op : Char}

/-- One more operator may stand behind others only as a sign. -/
theorem isOperatorRun_concat_iff (hne : operatorsAtEnd cs ≠ []) :
    IsOperatorRun (operatorsAtEnd cs ++ [op]) ↔ op = '-' ∧ TakesSign cs := by
  constructor
  · rintro (hnil | ⟨single, hsingle⟩ | ⟨last, hlast, hboth⟩)
    · exact absurd (List.append_eq_nil_iff.mp hnil).1 hne
    · have hlength := congrArg List.length hsingle
      rw [List.length_append, List.length_singleton, List.length_singleton] at hlength
      exact absurd (List.length_eq_zero_iff.mp (Nat.add_eq_right.mp hlength)) hne
    · have hparts : operatorsAtEnd cs ++ [op] = [last] ++ ['-'] := hboth
      obtain ⟨hrun, hop⟩ := List.append_inj' hparts rfl
      exact ⟨(List.cons.inj hop).1, last, hlast, hrun⟩
  · rintro ⟨rfl, last, hlast, hrun⟩
    rw [hrun]
    exact Or.inr (Or.inr ⟨last, hlast, rfl⟩)

/-- A text ends with no operator if what is added to it has none. -/
theorem operatorsAtEnd_append (cs : List Char) (hne : text ≠ [])
    (htext : ∀ c ∈ text, isOperator c = false) : operatorsAtEnd (cs ++ text) = [] := by
  obtain ⟨front, c, rfl⟩ := (List.eq_nil_or_concat' text).resolve_left hne
  rw [← List.append_assoc, operatorsAtEnd_concat, htext c (by simp), if_neg Bool.false_ne_true]

/-- Without the operators at its end, a text ends with none. -/
theorem operatorsAtEnd_dropOperators (cs : List Char) : operatorsAtEnd (dropOperators cs) = [] :=
  List.rtakeWhile_eq_nil_iff.mpr (List.rdropWhile_last_not isOperator cs)

/-- A value is written with a letter, a digit or a point at the end. -/
theorem operatorsAtEnd_of_hasValueForm (h : HasValueForm cs) : operatorsAtEnd cs = [] := by
  obtain ⟨negative, mantissa, power, rfl, hmantissa, -, ⟨rfl, hne⟩ | hpower⟩ := h
  · rw [List.append_nil]
    exact operatorsAtEnd_append _ hne fun c hc => isOperator_of_isAlphanum (hmantissa c hc)
  · obtain ⟨sign, digits, rfl, -, hne, hdigits⟩ := hpower
    have hsplit : signText negative ++ (mantissa ++ 'e' :: sign :: digits) =
        signText negative ++ mantissa ++ ['e', sign] ++ digits := by simp
    rw [hsplit]
    exact operatorsAtEnd_append _ hne fun c hc => isOperator_of_isDigit (hdigits c hc)

/-! ## Texts that are settled -/

namespace RunsSettled

theorem mono {front : List Char} (h : RunsSettled cs) (hfront : front <+: cs) :
    RunsSettled front :=
  fun _ hbeginning => h _ (hbeginning.trans hfront)

theorem nil : RunsSettled [] := by
  intro front hfront
  rw [List.prefix_nil.mp hfront]
  exact Or.inl rfl

theorem concat (h : RunsSettled cs) (hrun : IsOperatorRun (operatorsAtEnd (cs ++ [c]))) :
    RunsSettled (cs ++ [c]) := by
  intro front hfront
  rcases List.prefix_concat_iff.mp hfront with rfl | hfront
  · exact hrun
  · exact h front hfront

/-- One operator may always stand behind none. -/
theorem concat_operator (h : RunsSettled cs) (hnone : operatorsAtEnd cs = []) (op : Char) :
    RunsSettled (cs ++ [op]) := by
  refine h.concat ?_
  rw [operatorsAtEnd_concat, hnone]
  split_ifs
  · exact Or.inr (Or.inl ⟨op, rfl⟩)
  · exact Or.inl rfl

theorem append (h : RunsSettled cs) (htext : ∀ c ∈ text, isOperator c = false) :
    RunsSettled (cs ++ text) := by
  induction text using List.reverseRecOn with
  | nil => rwa [List.append_nil]
  | append_singleton text c ih =>
    have hc : isOperator c = false := htext c (by simp)
    rw [← List.append_assoc]
    refine (ih fun d hd => htext d (List.mem_append_left _ hd)).concat ?_
    rw [operatorsAtEnd_concat, hc]
    exact Or.inl rfl

theorem of_forall (htext : ∀ c ∈ text, isOperator c = false) : RunsSettled text :=
  nil.append htext

theorem of_all (htext : text.all (fun c => !isOperator c) = true) : RunsSettled text :=
  of_forall fun c hc => by simpa using List.all_eq_true.mp htext c hc

theorem of_hasValueForm (h : HasValueForm cs) : RunsSettled cs := by
  obtain ⟨negative, mantissa, power, rfl, hmantissa, -, hpower⟩ := h
  have hsign : RunsSettled (signText negative) := by
    cases negative with
    | false => exact nil
    | true => exact nil.concat_operator rfl '-'
  have hsigned := hsign.append fun c hc => isOperator_of_isAlphanum (hmantissa c hc)
  rw [← List.append_assoc]
  rcases hpower with ⟨rfl, -⟩ | ⟨sign, digits, rfl, -, -, hdigits⟩
  · rwa [List.append_nil]
  · have hletter : isOperator 'e' = false := by decide
    have he := hsigned.append (List.forall_mem_singleton.mpr hletter)
    have hnone := operatorsAtEnd_append (signText negative ++ mantissa) (List.cons_ne_nil 'e' [])
      (List.forall_mem_singleton.mpr hletter)
    have hpower := (he.concat_operator hnone sign).append
      fun c hc => isOperator_of_isDigit (hdigits c hc)
    rwa [List.append_assoc, List.append_assoc] at hpower

/-! ### What the keys add -/

theorem addDigit (h : RunsSettled cs) (hc : isOperator c = false) (limit : Nat) :
    RunsSettled (addDigit limit c cs) := by
  unfold Entry.addDigit
  split_ifs
  · exact h
  · exact h
  · exact of_forall (List.forall_mem_singleton.mpr hc)
  · exact h.append (List.forall_mem_singleton.mpr hc)

/-- In a settled text, a last operator that is no minus is the only one. -/
theorem operatorsAtEnd_of_last (h : RunsSettled cs) {last : Char} (hminus : last ≠ '-')
    (hlast : (operatorsAtEnd cs).getLast? = some last) : operatorsAtEnd cs = [last] := by
  rcases h cs (List.prefix_refl cs) with hrun | ⟨op, hrun⟩ | ⟨op, -, hrun⟩
  · rw [hrun] at hlast
    exact absurd hlast (by simp)
  · rw [hrun] at hlast ⊢
    obtain rfl : op = last := Option.some.inj hlast
    rfl
  · rw [hrun] at hlast
    exact absurd (Option.some.inj hlast).symm hminus

/-- An operator takes the place of those at the end, or is a sign behind one that is no minus. -/
theorem addOperator (h : RunsSettled cs) {fresh : Bool}
    (hfresh : fresh = true → operatorsAtEnd cs = [] ∨ op = '-' ∧ TakesSign cs) :
    RunsSettled (addOperator fresh op cs) := by
  unfold Entry.addOperator
  split
  · next last hlast =>
    by_cases hsign : op = '-' ∧ last ≠ '-'
    · obtain ⟨rfl, hminus⟩ := hsign
      have hrun := h.operatorsAtEnd_of_last hminus hlast
      have hadds : (fresh || ('-' == '-' && last != '-')) = true := by simp [hminus]
      rw [if_pos hadds]
      refine h.concat ?_
      rw [operatorsAtEnd_concat, if_pos (by decide)]
      exact (isOperatorRun_concat_iff (by simp [hrun])).mpr ⟨rfl, last, hminus, hrun⟩
    · -- A fresh text that ends with operators would take the operator as a sign only.
      have hstale : fresh = false := by
        refine Bool.eq_false_iff.mpr fun hfresh' => ?_
        rcases hfresh hfresh' with hnone | ⟨rfl, single, hsingle, hrun⟩
        · rw [hnone] at hlast
          exact absurd hlast (by simp)
        · rw [hrun] at hlast
          obtain rfl : single = last := Option.some.inj hlast
          exact hsign ⟨rfl, hsingle⟩
      have hreplaces : ¬(fresh || (op == '-' && last != '-')) = true := by
        rw [hstale, Bool.false_or, Bool.and_eq_true, beq_iff_eq, bne_iff_ne]
        exact hsign
      rw [if_neg hreplaces]
      exact (h.mono (prefix_dropOperators cs)).concat_operator (operatorsAtEnd_dropOperators cs) op
  · next hnone => exact h.concat_operator (List.getLast?_eq_none_iff.mp hnone) op

/-- A function is multiplied with what ends in no operator. -/
theorem addFunction (h : RunsSettled cs) {call : List Char}
    (hcall : ∀ c ∈ call, isOperator c = false) (fresh : Bool) :
    RunsSettled (addFunction fresh call cs) := by
  unfold Entry.addFunction
  split_ifs with hblank
  · exact of_forall hcall
  · dsimp only
    split_ifs with hmultiplies
    · have hnone : operatorsAtEnd cs = [] := by
        obtain ⟨-, hlast⟩ := Bool.and_eq_true_iff.mp hmultiplies
        split at hlast
        · next last heq =>
          obtain ⟨front, rfl⟩ := List.getLast?_eq_some_iff.mp heq
          have hlast' : isOperator last = false := by
            simp only [Bool.or_eq_true, beq_iff_eq] at hlast
            rcases hlast with ((hdigit | rfl) | rfl) | rfl
            · exact isOperator_of_isDigit hdigit
            all_goals decide
          exact operatorsAtEnd_append front (List.cons_ne_nil last [])
            (List.forall_mem_singleton.mpr hlast')
        · exact absurd hlast Bool.false_ne_true
      have hproduct := (h.concat_operator hnone '*').append hcall
      rwa [List.append_assoc] at hproduct
    · exact h.append hcall

theorem addSymbol (h : RunsSettled cs) (htext : ∀ c ∈ text, isOperator c = false) :
    RunsSettled (addSymbol text cs) := by
  unfold Entry.addSymbol
  split_ifs
  · exact of_forall htext
  · exact h.append htext

theorem erase (h : RunsSettled cs) (library : Library) : RunsSettled (erase library cs) := by
  rcases erase_prefix_or_zero library cs with hprefix | hzero
  · exact h.mono hprefix
  · rw [hzero]
    exact of_all (by decide)

end RunsSettled
end Entry

/-! ## One key -/

/-- The keys that leave both the entry and its freshness alone, whatever they are. -/
def Key.isIdle : Key → Bool
  | .memoryAdd | .memorySubtract | .angle _ => true
  | .digit _ | .operator _ | .function _ | .symbol _ | .erase | .clear | .equals
  | .memoryRecall => false

namespace Session

variable {s : Session} {key : Key}

/-- The percent key finds no number at the beginning of the entry, and an operator at its end. -/
def PercentMisses (s : Session) : Prop :=
  Entry.leadingReal? s.entry.toList = none ∧ Entry.operatorsAtEnd s.entry.toList ≠ []

theorem isOperator_of_onKeypad {c : Char} (hkey : (Key.digit c).OnKeypad) :
    Entry.isOperator c = false := by
  rcases hkey with hdigit | rfl
  · exact Entry.isOperator_of_isDigit hdigit
  · decide

/-- Every beginning of the entry stays settled, if nothing but a sign is added to a fresh entry that
ends with an operator. -/
theorem runsSettled_press (hkey : key.OnKeypad)
    (hfresh : ∀ op, key = .operator op → op ≠ '%' → s.fresh = true →
      Entry.operatorsAtEnd s.entry.toList = [] ∨ op = '-' ∧ Entry.TakesSign s.entry.toList)
    (hs : Entry.RunsSettled s.entry.toList) : Entry.RunsSettled (s.press key).entry.toList := by
  refine s.press_entry key hs (.of_all (by decide))
    (fun x => .of_hasValueForm (hasValueForm_realText x))
    (fun _ value => .of_hasValueForm value.hasValueForm_resultText)
    (fun _ => .of_all (by decide)) ?restart ?digit ?operator ?function ?symbol (hs.erase _)
  case restart =>
    rintro c rfl
    split_ifs
    · exact .of_all (by decide)
    · exact .of_forall (List.forall_mem_singleton.mpr (isOperator_of_onKeypad hkey))
  case digit =>
    rintro c rfl
    exact hs.addDigit (isOperator_of_onKeypad hkey) _
  case operator =>
    rintro op cs rfl hpercent (rfl | rfl)
    · exact hs.addOperator (hfresh op rfl hpercent)
    · exact (Entry.RunsSettled.of_all (by decide)).addOperator fun _ => Or.inl rfl
  case function =>
    rintro call rfl
    have hcall := hkey.forall_mem_call (p := fun c => !Entry.isOperator c) (by decide)
    exact hs.addFunction (fun c hc => Bool.not_eq_true' _ ▸ hcall c hc) _
  case symbol =>
    rintro text rfl
    have htext := hkey.forall_mem_symbol (p := fun c => !Entry.isOperator c) (by decide)
    exact hs.addSymbol fun c hc => Bool.not_eq_true' _ ▸ htext c hc

/-- An entry that is fresh and ends with an operator has been so before, or the percent key has just
missed. -/
theorem fresh_press (hfresh : (s.press key).fresh = true)
    (hends : Entry.operatorsAtEnd (s.press key).entry.toList ≠ []) :
    (key.isIdle = true ∧ s.fresh = true ∧ (s.press key).entry = s.entry) ∨
      key = .operator '%' ∧ s.PercentMisses ∧ (s.press key).entry = s.entry := by
  have hvalue : ∀ cs, HasValueForm cs → (s.press key).entry.toList ≠ cs := by
    rintro cs hform rfl
    exact hends (Entry.operatorsAtEnd_of_hasValueForm hform)
  cases key with
  | digit c =>
    rw [press, pressDigit] at hfresh
    by_cases hstale : s.fresh = true
    · rw [if_pos hstale] at hfresh
      exact absurd hfresh Bool.false_ne_true
    · rw [if_neg hstale] at hfresh
      exact absurd hfresh Bool.false_ne_true
  | operator op =>
    rw [press, pressOperator] at hfresh hends hvalue ⊢
    by_cases hpercent : op = '%'
    · rw [if_pos hpercent, pressPercent] at hends hvalue ⊢
      cases hreal : Entry.leadingReal? s.entry.toList with
      | none =>
        rw [hreal] at hends
        exact Or.inr ⟨by rw [hpercent], ⟨hreal, hends⟩, rfl⟩
      | some x =>
        rw [hreal] at hvalue
        exact absurd rfl (hvalue _ (hasValueForm_realText (x / 100)))
    · rw [if_neg hpercent] at hfresh
      exact absurd hfresh Bool.false_ne_true
  | function call | symbol text | erase | memoryRecall => exact absurd hfresh Bool.false_ne_true
  | clear =>
    have hzero : HasValueForm (signText false ++ "0".toList) :=
      .ofWord false (by decide) (by decide)
    exact absurd rfl (hvalue _ hzero)
  | equals =>
    rw [press] at hvalue
    rcases s.calculate_cases with ⟨value, after, -, hcalculate⟩ | ⟨error, after, hcalculate⟩
    · rw [hcalculate] at hvalue
      exact absurd rfl (hvalue _ value.hasValueForm_resultText)
    · have hword : HasValueForm (signText false ++ failureText.toList) :=
        .ofWord false (by decide) (by decide)
      rw [hcalculate] at hvalue
      exact absurd rfl (hvalue _ hword)
  | memoryAdd | memorySubtract =>
    rw [press, withMemory] at hfresh ⊢
    cases hreal : realOfText? s.entry.toList with
    | none =>
      rw [hreal] at hfresh
      exact Or.inl ⟨rfl, hfresh, rfl⟩
    | some x =>
      rw [hreal] at hfresh
      exact Or.inl ⟨rfl, hfresh, rfl⟩
  | angle mode => exact Or.inl ⟨rfl, hfresh, rfl⟩

/-- The operator that is pressed on a fresh entry is added to it, whatever it ends with. -/
theorem operatorsAtEnd_press_of_fresh {op : Char} (hop : op ≠ '%') (hkey : (Key.operator op).OnKeypad)
    (hfresh : s.fresh = true) (hends : Entry.operatorsAtEnd s.entry.toList ≠ []) :
    Entry.operatorsAtEnd (s.press (.operator op)).entry.toList =
      Entry.operatorsAtEnd s.entry.toList ++ [op] := by
  have hentry : s.entry.toList ≠ failureText.toList := by
    intro h
    rw [h] at hends
    exact hends (by decide)
  have hoperator : Entry.isOperator op = true := hkey
  have hadded : Entry.addOperator true op s.entry.toList = s.entry.toList ++ [op] := by
    unfold Entry.addOperator
    split
    · rfl
    · rfl
  rw [press, pressOperator, if_neg hop, toList_entry_edit, if_neg hentry, hfresh, hadded,
    Entry.operatorsAtEnd_concat, if_pos hoperator]

/-- A percent key that misses leaves the entry as it is, and makes it fresh. -/
theorem press_percent_of_misses (h : s.PercentMisses) :
    (s.press (.operator '%')).entry = s.entry ∧ (s.press (.operator '%')).fresh = true := by
  rw [press, pressOperator, if_pos rfl, pressPercent, h.1]
  exact ⟨rfl, rfl⟩

/-- An idle key leaves the entry and its freshness as they are. -/
theorem press_of_isIdle (h : key.isIdle = true) :
    (s.press key).entry = s.entry ∧ (s.press key).fresh = s.fresh := by
  cases key with
  | memoryAdd | memorySubtract =>
    rw [press, withMemory]
    cases realOfText? s.entry.toList with
    | none => exact ⟨rfl, rfl⟩
    | some x => exact ⟨rfl, rfl⟩
  | angle mode => exact ⟨rfl, rfl⟩
  | digit c | operator op | function call | symbol text | erase | clear | equals | memoryRecall =>
    exact absurd h Bool.false_ne_true

/-! ## Runs -/

/-- Idle keys leave the entry and its freshness as they are. -/
theorem pressAll_of_isIdle {idle : List Key} (h : ∀ key ∈ idle, key.isIdle = true) :
    (s.pressAll idle).entry = s.entry ∧ (s.pressAll idle).fresh = s.fresh := by
  induction idle using List.reverseRecOn with
  | nil => exact ⟨rfl, rfl⟩
  | append_singleton idle key ih =>
    obtain ⟨hentry, hfresh⟩ := ih fun key' hmem => h key' (List.mem_append_left _ hmem)
    obtain ⟨hentry', hfresh'⟩ := (s.pressAll idle).press_of_isIdle (h key (by simp))
    rw [pressAll_concat]
    exact ⟨hentry'.trans hentry, hfresh'.trans hfresh⟩

/-- Whether nothing but signs is pressed behind a percent key that has missed. -/
def SparesOperators (start : Session) (keys : List Key) : Prop :=
  ∀ before idle op after, keys = before ++ .operator '%' :: (idle ++ .operator op :: after) →
    (∀ key ∈ idle, key.isIdle = true) → op ≠ '%' → (start.pressAll before).PercentMisses →
      op = '-' ∧ Entry.TakesSign (start.pressAll before).entry.toList

/-- Where an entry is fresh and ends with an operator, the percent key has missed it, and only idle
keys have been pressed since. -/
theorem exists_percent_of_fresh {start : Session}
    (hstart : Entry.operatorsAtEnd start.entry.toList = []) {keys : List Key}
    (hfresh : (start.pressAll keys).fresh = true)
    (hends : Entry.operatorsAtEnd (start.pressAll keys).entry.toList ≠ []) :
    ∃ before idle, keys = before ++ .operator '%' :: idle ∧ (∀ key ∈ idle, key.isIdle = true) ∧
      (start.pressAll before).PercentMisses ∧
      (start.pressAll keys).entry = (start.pressAll before).entry := by
  -- From the end, since the last key is the last step.
  induction keys using List.reverseRecOn with
  | nil => exact absurd hstart hends
  | append_singleton keys key ih =>
    rw [pressAll_concat] at hfresh hends ⊢
    rcases fresh_press hfresh hends with ⟨hidle, hfresh', hentry⟩ | ⟨rfl, hmisses, hentry⟩
    · rw [hentry] at hends
      obtain ⟨before, idle, rfl, hidles, hmisses, hsame⟩ := ih hfresh' hends
      refine ⟨before, idle ++ [key], by simp, fun key' hmem => ?_, hmisses, hentry.trans hsame⟩
      rcases List.mem_append.mp hmem with hmem | hmem
      · exact hidles key' hmem
      · rw [List.mem_singleton.mp hmem]
        exact hidle
    · exact ⟨keys, [], rfl, by simp, hmisses, hentry⟩

/-- What every such run keeps: all beginnings of the entry are settled. -/
theorem runsSettled_pressAll (settings : Settings) {keys : List Key}
    (hkeypad : ∀ key ∈ keys, key.OnKeypad) (hspares : (start settings).SparesOperators keys) :
    Entry.RunsSettled ((start settings).pressAll keys).entry.toList := by
  have hentry : (start settings).entry = "0" := rfl
  induction keys using List.reverseRecOn with
  | nil =>
    rw [pressAll, List.foldl_nil, hentry]
    exact .of_all (by decide)
  | append_singleton keys key ih =>
    have hspares' : (start settings).SparesOperators keys := by
      rintro before idle op after rfl
      exact hspares before idle op (after ++ [key]) (by simp)
    rw [pressAll_concat]
    refine runsSettled_press (hkeypad key (by simp)) ?_
      (ih (fun key' hmem => hkeypad key' (List.mem_append_left _ hmem)) hspares')
    rintro op rfl hop hfresh
    by_cases hends : Entry.operatorsAtEnd ((start settings).pressAll keys).entry.toList = []
    · exact Or.inl hends
    · have hstart : Entry.operatorsAtEnd (start settings).entry.toList = [] := by
        rw [hentry]
        decide
      obtain ⟨before, idle, rfl, hidle, hmisses, hsame⟩ :=
        exists_percent_of_fresh hstart hfresh hends
      rw [hsame]
      exact Or.inr (hspares before idle op [] (by simp) hidle hop hmisses)

/-- An operator that is pressed behind a percent key that has missed stands behind those that the key
has left. -/
theorem operatorsAtEnd_pressAll_of_misses {start : Session} {before idle : List Key} {op : Char}
    (hidle : ∀ key ∈ idle, key.isIdle = true) (hop : op ≠ '%') (hkey : (Key.operator op).OnKeypad)
    (hmisses : (start.pressAll before).PercentMisses) :
    Entry.operatorsAtEnd
        (start.pressAll (before ++ .operator '%' :: (idle ++ [.operator op]))).entry.toList =
      Entry.operatorsAtEnd (start.pressAll before).entry.toList ++ [op] := by
  obtain ⟨hentry, hfresh⟩ := press_percent_of_misses hmisses
  obtain ⟨hentry', hfresh'⟩ :=
    ((start.pressAll before).press (.operator '%')).pressAll_of_isIdle hidle
  have hsplit : start.pressAll (before ++ .operator '%' :: (idle ++ [.operator op])) =
      (((start.pressAll before).press (.operator '%')).pressAll idle).press (.operator op) := by
    simp [pressAll]
  have hsame := hentry'.trans hentry
  have hends := hmisses.2
  rw [← hsame] at hends
  rw [hsplit, operatorsAtEnd_press_of_fresh hop hkey (hfresh'.trans hfresh) hends, hsame]

/-- **The operators at the end of the entry.** All along a run of the keypad the entry ends with no
operator, with one, or with a minus behind one that is no minus, exactly if nothing but signs is
pressed behind a percent key that has missed. -/
theorem isOperatorRun_pressAll (settings : Settings) {keys : List Key}
    (hkeypad : ∀ key ∈ keys, key.OnKeypad) :
    (∀ before, before <+: keys →
      Entry.IsOperatorRun
        (Entry.operatorsAtEnd ((start settings).pressAll before).entry.toList)) ↔
      (start settings).SparesOperators keys := by
  constructor
  · rintro hruns before idle op after rfl hidle hop hmisses
    have hbeginning : before ++ .operator '%' :: (idle ++ [.operator op]) <+:
        before ++ .operator '%' :: (idle ++ .operator op :: after) := ⟨after, by simp⟩
    have hrun := hruns _ hbeginning
    rw [operatorsAtEnd_pressAll_of_misses hidle hop (hkeypad _ (by simp)) hmisses] at hrun
    exact (Entry.isOperatorRun_concat_iff hmisses.2).mp hrun
  · rintro hspares before ⟨after, rfl⟩
    have hspares' : (start settings).SparesOperators before := by
      rintro front idle op rest rfl
      exact hspares front idle op (rest ++ after) (by simp)
    exact runsSettled_pressAll settings
      (fun key hmem => hkeypad key (List.mem_append_left _ hmem)) hspares' _ (List.prefix_refl _)

/-- The percent key misses, and a minus is pressed behind the operator that it has left. -/
theorem isOperatorRun_pressAll_sign :
    let keys : List Key := [.symbol "(", .operator '+', .operator '%', .memoryAdd, .operator '-']
    (∀ key ∈ keys, key.OnKeypad) ∧
      Entry.operatorsAtEnd ((start {}).pressAll keys).entry.toList = ['+', '-'] ∧
      (start {}).SparesOperators keys ∧
      Entry.IsOperatorRun (Entry.operatorsAtEnd ((start {}).pressAll keys).entry.toList) := by
  intro keys
  have hkeypad : ∀ key ∈ keys, key.OnKeypad := by decide
  have hends : Entry.operatorsAtEnd ((start {}).pressAll keys).entry.toList = ['+', '-'] := by
    decide +kernel
  have hspares : (start {}).SparesOperators keys := by
    intro before idle op after hkeys hidle hop hmisses
    -- The percent key is the third one, and the only operator behind it is the last key.
    rcases before with _ | ⟨k₁, _ | ⟨k₂, _ | ⟨k₃, before⟩⟩⟩
    · simp [keys] at hkeys
    · simp [keys] at hkeys
    · rcases idle with _ | ⟨k₃, _ | ⟨k₄, idle⟩⟩
      · simp [keys] at hkeys
      · simp only [keys, List.cons_append, List.nil_append, List.cons.injEq, Key.operator.injEq]
          at hkeys
        obtain ⟨rfl, rfl, -, -, rfl, -⟩ := hkeys
        exact ⟨rfl, '+', by decide, by decide +kernel⟩
      · simp [keys] at hkeys
    · have hmem : Key.operator '%' ∈ ([.memoryAdd, .operator '-'] : List Key) := by
        simp only [keys, List.cons_append, List.cons.injEq] at hkeys
        rw [hkeys.2.2.2]
        simp
      exact absurd hmem (by decide)
  exact ⟨hkeypad, hends, hspares,
    (isOperatorRun_pressAll {} hkeypad).mpr hspares keys (List.prefix_refl _)⟩

/-- The percent key leaves a parenthesis and a plus as they are. A times is then added to the plus. -/
theorem operator_added_to_fresh_operator :
    let keys : List Key := [.symbol "(", .operator '+', .operator '%', .operator '*']
    (∀ key ∈ keys, key.OnKeypad) ∧ ((start {}).pressAll keys).entry = "(+*" ∧
      ¬Entry.IsOperatorRun (Entry.operatorsAtEnd ((start {}).pressAll keys).entry.toList) := by
  intro keys
  have hrun : Entry.operatorsAtEnd ((start {}).pressAll keys).entry.toList = ['+', '*'] := by
    decide +kernel
  refine ⟨by decide, by decide +kernel, ?_⟩
  rw [hrun]
  rintro (hnil | ⟨op, hone⟩ | ⟨op, -, htwo⟩)
  · exact absurd hnil (List.cons_ne_nil _ _)
  · exact absurd (List.cons.inj hone).2 (List.cons_ne_nil _ _)
  · exact absurd (List.cons.inj (List.cons.inj htwo).2).1 (by decide)

end Session
end Reckoner
