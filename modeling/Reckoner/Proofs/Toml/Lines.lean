/-
Documents of plain lines.

A program that writes a document has no use for most of the language. It writes lines, each with a key
without quotes, an equals sign and a value. Such a document is read line by line, and each line adds
its key at the end of what the lines before it have built, so the entries come in the order of the
lines. All that can go wrong is a key that is there twice.

A line carries the proof that its value is read to the end of the line whatever stands behind it. So
nothing here depends on the kinds of values.
-/
import Mathlib.Data.List.Nodup
import Reckoner.Proofs.Lexer.Runs
import Reckoner.Toml.Document

set_option autoImplicit false

namespace Reckoner.Toml

/-- A line with a key without quotes and a value. -/
structure Line where
  key : String
  /-- The text of the value. -/
  value : List Char
  item : Item
  key_ne_nil : key.toList ≠ []
  key_bare : ∀ c ∈ key.toList, isKeyChar c = true
  /-- The value does not begin with a blank. -/
  value_head : ∀ c, value.head? = some c → isSpace c = false
  value_reads : ∀ rest, value? maxDepth (value ++ '\n' :: rest) = some (item, '\n' :: rest)

/-! ## Keys -/

theorem skipSpaces_of_head {cs : List Char} (h : ∀ c, cs.head? = some c → isSpace c = false) :
    skipSpaces cs = cs := by
  have hnone : ∀ c ∈ ([] : List Char), isSpace c = true := by simp
  exact (Token.takeWhile_dropWhile_run hnone h).2

section Keys

variable {key : List Char} (hne : key ≠ []) (hbare : ∀ c ∈ key, isKeyChar c = true)

include hne hbare

/-- A key begins with none of the characters that a key is not made of. -/
theorem head?_key_ne (rest : List Char) {c : Char} (hc : isKeyChar c = false) :
    (key ++ rest).head? ≠ some c := by
  obtain ⟨d, ds, rfl⟩ := List.exists_cons_of_ne_nil hne
  intro h
  obtain rfl := Option.some.inj h
  rw [hbare _ List.mem_cons_self] at hc
  exact Bool.noConfusion hc

theorem skipSpaces_key (rest : List Char) : skipSpaces (key ++ rest) = key ++ rest := by
  refine skipSpaces_of_head fun c hc => Bool.eq_false_iff.mpr fun hspace => ?_
  rcases (by simpa [isSpace] using hspace : c = ' ' ∨ c = '\t') with rfl | rfl
  · exact head?_key_ne hne hbare rest (by decide) hc
  · exact head?_key_ne hne hbare rest (by decide) hc

/-- Nothing is skipped in front of a key. -/
theorem skipFiller_key (rest : List Char) (fuel : Nat) :
    skipFiller fuel (key ++ rest) = key ++ rest := by
  have hcomment : skipComment (key ++ rest) = key ++ rest := by
    unfold skipComment
    split
    · next heq => exact absurd (congrArg List.head? heq) (head?_key_ne hne hbare rest (by decide))
    · rfl
  have hnewline : newline? (key ++ rest) = none := by
    unfold newline?
    split
    · next heq => exact absurd (congrArg List.head? heq) (head?_key_ne hne hbare rest (by decide))
    · next heq => exact absurd (congrArg List.head? heq) (head?_key_ne hne hbare rest (by decide))
    · rfl
  cases fuel with
  | zero => rfl
  | succ fuel => simp [skipFiller, skipSpaces_key hne hbare, hcomment, hnewline]

theorem simpleKey?_bare {rest : List Char}
    (hrest : ∀ c, rest.head? = some c → isKeyChar c = false) :
    simpleKey? (key ++ rest) = some (key, rest) := by
  obtain ⟨htake, hdrop⟩ := Token.takeWhile_dropWhile_run hbare hrest
  unfold simpleKey?
  split
  · next heq => exact absurd (congrArg List.head? heq) (head?_key_ne hne hbare rest (by decide))
  · next heq => exact absurd (congrArg List.head? heq) (head?_key_ne hne hbare rest (by decide))
  · rw [htake, hdrop, if_neg hne]

/-- A key without points, with the equals sign behind it. -/
theorem key?_bare (rest : List Char) :
    key? (key ++ ' ' :: '=' :: rest) = some (([], String.ofList key), '=' :: rest) := by
  have hsimple : simpleKey? (key ++ ' ' :: '=' :: rest) = some (key, ' ' :: '=' :: rest) :=
    simpleKey?_bare hne hbare (by simp; decide)
  have hequals : skipSpaces (' ' :: '=' :: rest) = '=' :: rest := rfl
  have hkeys : ∀ fuel, keys? (fuel + 1) (key ++ ' ' :: '=' :: rest) =
      some ([String.ofList key], '=' :: rest) := by
    intro fuel
    simp [keys?, skipSpaces_key hne hbare, hsimple, hequals]
  simp [key?, hkeys, maxDepth]

end Keys

/-! ## Lines -/

namespace Line

/-- The text of a line. -/
def text (l : Line) : List Char :=
  l.key.toList ++ ' ' :: '=' :: ' ' :: (l.value ++ ['\n'])

/-- What a line says. -/
def statement (l : Line) : Statement :=
  .pair [] l.key l.item

/-- The entry that a line makes. -/
def entry (l : Line) : String × Item :=
  (l.key, l.item)

theorem text_append (l : Line) (rest : List Char) :
    l.text ++ rest = l.key.toList ++ ' ' :: '=' :: ' ' :: (l.value ++ '\n' :: rest) := by
  simp [text]

/-- A line begins with a character of its key. -/
theorem head?_text_ne (l : Line) (rest : List Char) {c : Char} (hc : isKeyChar c = false) :
    (l.text ++ rest).head? ≠ some c := by
  rw [text_append]
  exact head?_key_ne l.key_ne_nil l.key_bare _ hc

theorem pair?_text (l : Line) (rest : List Char) :
    pair? (value? maxDepth) (l.text ++ rest) = some (([], l.key, l.item), '\n' :: rest) := by
  have hblank : skipSpaces (' ' :: (l.value ++ '\n' :: rest)) = l.value ++ '\n' :: rest := by
    have hvalue : skipSpaces (l.value ++ '\n' :: rest) = l.value ++ '\n' :: rest := by
      refine skipSpaces_of_head fun c hc => ?_
      cases hempty : l.value with
      | nil =>
        rw [hempty] at hc
        obtain rfl := Option.some.inj hc
        decide
      | cons d ds =>
        rw [hempty] at hc
        exact l.value_head c (by rw [hempty]; exact hc)
    exact hvalue
  rw [text_append, pair?, key?_bare l.key_ne_nil l.key_bare]
  simp [hblank, l.value_reads]

theorem statement?_text (l : Line) (rest : List Char) :
    statement? (l.text ++ rest) = some (l.statement, rest) := by
  have hend : lineEnd? ('\n' :: rest) = some rest := rfl
  unfold statement?
  split
  · next heq => exact absurd (congrArg List.head? heq) (l.head?_text_ne rest (by decide))
  · simp [pair?_text, hend, statement]

end Line

theorem statements?_lines (lines : List Line) {fuel : Nat}
    (hfuel : (lines.flatMap Line.text).length < fuel) :
    statements? fuel (lines.flatMap Line.text) = some (lines.map Line.statement) := by
  induction lines generalizing fuel with
  | nil =>
    obtain ⟨fuel, rfl⟩ := Nat.exists_eq_succ_of_ne_zero (Nat.ne_of_gt hfuel)
    rfl
  | cons l lines ih =>
    obtain ⟨fuel, rfl⟩ := Nat.exists_eq_succ_of_ne_zero (Nat.ne_of_gt (Nat.zero_lt_of_lt hfuel))
    have hrest : statements? fuel (lines.flatMap Line.text) = some (lines.map Line.statement) := by
      refine ih ?_
      simp only [List.flatMap_cons, Line.text, List.length_append, List.length_cons] at hfuel
      omega
    have hskip : ∀ fuel, skipFiller fuel (l.text ++ lines.flatMap Line.text) =
        l.text ++ lines.flatMap Line.text := by
      intro fuel
      rw [Line.text_append]
      exact skipFiller_key l.key_ne_nil l.key_bare _ fuel
    rw [List.flatMap_cons, statements?, hskip]
    split
    · next heq =>
      rw [Line.text_append] at heq
      exact absurd (List.append_eq_nil_iff.mp heq).1 l.key_ne_nil
    · simp [Line.statement?_text, hrest]

/-! ## What the lines build -/

section NewKeys

variable {entries : Entries} {key : String}

theorem lookup_eq_none_iff : entries.lookup key = none ↔ key ∉ entries.map Prod.fst := by
  rw [List.lookup_eq_none_iff]
  constructor
  · intro h hmem
    obtain ⟨entry, hentry, rfl⟩ := List.mem_map.mp hmem
    exact bne_iff_ne.mp (h entry hentry) rfl
  · intro h entry hentry
    rw [bne_iff_ne]
    rintro rfl
    exact h (List.mem_map_of_mem hentry)

/-- A new key goes to the end. -/
theorem put_eq_append (h : key ∉ entries.map Prod.fst) (item : Item) :
    entries.put key item = entries ++ [(key, item)] := by
  induction entries with
  | nil => rfl
  | cons entry entries ih =>
    rw [List.map_cons, List.mem_cons, not_or] at h
    obtain ⟨hne, hnew⟩ := h
    rw [Entries.put, if_neg (Ne.symm hne), ih hnew, List.cons_append]

end NewKeys

namespace Line

theorem apply_statement (l : Line) {entries : Entries} (h : l.key ∉ entries.map Prod.fst) :
    l.statement.apply (entries, []) = some (entries ++ [l.entry], []) := by
  simp [statement, Statement.apply, Entries.alter, Entries.addPair, lookup_eq_none_iff.mpr h,
    put_eq_append h, entry]

/-- A key cannot be set a second time. -/
theorem apply_statement_eq_none (l : Line) {entries : Entries} (h : l.key ∈ entries.map Prod.fst) :
    l.statement.apply (entries, []) = none := by
  obtain ⟨item, hitem⟩ : ∃ item, entries.lookup l.key = some item :=
    Option.ne_none_iff_exists'.mp fun hnone => lookup_eq_none_iff.mp hnone h
  simp [statement, Statement.apply, Entries.alter, Entries.addPair, hitem]

theorem foldlM_statement (lines : List Line) (entries : Entries)
    (h : (entries.map Prod.fst).Nodup) :
    (lines.map statement).foldlM (fun state statement => statement.apply state) (entries, []) =
      if (entries.map Prod.fst ++ lines.map key).Nodup
        then some (entries ++ lines.map entry, []) else none := by
  induction lines generalizing entries with
  | nil => simp [h]
  | cons l lines ih =>
    rw [List.map_cons, List.foldlM_cons]
    by_cases hmem : l.key ∈ entries.map Prod.fst
    · have htwice : ¬(entries.map Prod.fst ++ (l :: lines).map key).Nodup := by
        intro hnodup
        exact (List.nodup_append.mp hnodup).2.2 _ hmem _ List.mem_cons_self rfl
      rw [l.apply_statement_eq_none hmem, if_neg htwice]
      rfl
    · have hnew : ((entries ++ [l.entry]).map Prod.fst).Nodup := by
        rw [List.map_append, List.nodup_append_comm]
        exact List.nodup_cons.mpr ⟨hmem, h⟩
      have hrest := ih _ hnew
      rw [l.apply_statement hmem]
      simpa [entry] using hrest

end Line

/-- A document of lines has their entries, unless a key is there twice; then it is none. -/
theorem ofText?_lines (lines : List Line) :
    ofText? (String.ofList (lines.flatMap Line.text)) =
      if (lines.map Line.key).Nodup then some (lines.map Line.entry) else none := by
  have hstatements := statements?_lines lines (Nat.lt_succ_self _)
  have hdocument : documentOfStatements (lines.map Line.statement) =
      if (lines.map Line.key).Nodup then some (lines.map Line.entry) else none := by
    have hfold := Line.foldlM_statement lines [] List.nodup_nil
    by_cases hkeys : (lines.map Line.key).Nodup <;> simp [documentOfStatements, hfold, hkeys]
  rw [ofText?, String.toList_ofList]
  split
  · next heq =>
    -- No line begins with a byte order mark.
    cases lines with
    | nil => exact absurd heq (List.cons_ne_nil _ _).symm
    | cons l lines =>
      rw [List.flatMap_cons] at heq
      exact absurd (congrArg List.head? heq) (l.head?_text_ne _ (by decide))
  · rw [hstatements]
    exact hdocument

end Reckoner.Toml
