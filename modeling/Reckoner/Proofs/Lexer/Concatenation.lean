/-
Texts one behind the other.

The tokens of two texts stand side by side like the texts, unless the first character of the second
text makes a token of the first one longer. Some characters never do: what begins with one of them
separates itself from every text. A sign does not, since behind a numeral and an `e` it may belong to
a power of ten. A letter goes on with a name that ends right before it, and with nothing else, unless a
power of ten begins there. So there the tokens stand side by side exactly if the first text does not
end in a name. If it does, and a name begins with the letter, the two names become one.
-/
import Reckoner.Proofs.Lexer.Exactness

set_option autoImplicit false

namespace Reckoner.Token

/-! ## A further character -/

/-- A token stays the longest one before a character with which no token of its kind goes on. -/
theorem IsLongest.append {t : Token} {c : Char} {cs rest : List Char} (hshape : t.IsShaped)
    (hlongest : t.IsLongest cs)
    (hstop : ∀ u : Token, u.IsShaped → ∀ front behind, u.text.toList = front ++ c :: behind →
      behind <+: rest → u.opening ≠ t.opening) : t.IsLongest (cs ++ c :: rest) := by
  intro u hu hprefix
  have hopen := opening_of_prefix hshape hu hprefix
  rw [← List.append_assoc] at hprefix
  rcases List.prefix_or_prefix_of_prefix hprefix (List.prefix_append _ _) with hwithin | hbeyond
  · exact hlongest u hu hwithin
  obtain ⟨more, hmore⟩ := hbeyond
  rw [← hmore, List.prefix_append_right_inj] at hprefix
  cases more with
  | nil => exact hlongest u hu (hmore ▸ List.append_nil _ ▸ List.prefix_rfl)
  | cons d more =>
    obtain ⟨rfl, hbehind⟩ := List.cons_prefix_cons.mp hprefix
    exact absurd hopen (hstop u hu _ more hmore.symm hbehind)

/-! ## Characters that separate -/

/-- Whether these characters go on with no text in front of them. -/
def Separates (rest : List Char) : Prop :=
  ∀ c, rest.head? = some c → isWordChar c = false ∧ c ≠ '.' ∧ c ≠ '+' ∧ c ≠ '-'

theorem Separates.cons {c : Char} (h : isWordChar c = false ∧ c ≠ '.' ∧ c ≠ '+' ∧ c ≠ '-')
    (rest : List Char) : Separates (c :: rest) := by
  intro d hd
  obtain rfl := Option.some.inj hd
  exact h

/-- What has such a character in it is neither a numeral nor a name. -/
theorem opening_of_separator {c : Char} {u : Token}
    (hc : isWordChar c = false ∧ c ≠ '.' ∧ c ≠ '+' ∧ c ≠ '-') (hu : u.IsShaped)
    (hmem : c ∈ u.text.toList) : u.opening = (false, false) := by
  obtain ⟨hword, hpoint, hplus, hminus⟩ := hc
  cases u with
  | numeral text =>
    have hmantissa : isMantissaChar c = false := (Breaks.cons ⟨hword, hpoint⟩ []).isMantissaChar rfl
    have hpower : c ≠ 'e' ∧ c ≠ 'E' := by
      constructor
      all_goals
        rintro rfl
        exact absurd hword (by decide)
    have hnot := (mem_numeral hu hmem).resolve_left (Bool.eq_false_iff.mp hmantissa)
    simp only [List.mem_cons, List.not_mem_nil, hpower, hplus, hminus, or_self] at hnot
  | word text => exact absurd (hword.symm.trans (mem_word hu hmem)) Bool.false_ne_true
  | op d => rfl

theorem IsLongest.append_separator {t : Token} {cs rest : List Char} (hrest : Separates rest)
    (hshape : t.IsShaped) (hlongest : t.IsLongest cs) : t.IsLongest (cs ++ rest) := by
  cases rest with
  | nil => rwa [List.append_nil]
  | cons c rest =>
    have hstop := fun (u : Token) => opening_of_separator (u := u) (hrest c rfl)
    cases t with
    | op d => exact isLongest_op _ hshape
    | numeral _ | word _ =>
      refine hlongest.append hshape fun u hu front behind htext _ => ?_
      rw [hstop u hu (htext ▸ List.mem_append_right front List.mem_cons_self)]
      rintro ⟨⟩

theorem LaidOut.append {ts us : List Token} {cs rest : List Char} (hrest : Separates rest)
    (h : LaidOut ts cs) (h' : LaidOut us rest) : LaidOut (ts ++ us) (cs ++ rest) := by
  induction h with
  | nil => exact h'
  | blank hc _ ih => exact .blank hc ih
  | token hshape hlongest hsplit _ ih =>
    subst hsplit
    exact .token hshape (hlongest.append_separator hrest hshape) (List.append_assoc ..).symm ih

/-- The tokens of a text and of what separates itself from it, one behind the other. -/
theorem ofChars_append {cs rest : List Char} {ts us : List Token} (hrest : Separates rest)
    (hcs : ofChars cs = .ok ts) (hus : ofChars rest = .ok us) :
    ofChars (cs ++ rest) = .ok (ts ++ us) :=
  ofChars_eq_ok_iff.mpr ((laidOut_of_ofChars hcs).append hrest (laidOut_of_ofChars hus))

/-! ## Names at the end of a text -/

/-- Whether a token is a name. -/
def isName : Token → Bool
  | .word _ => true
  | .numeral _ | .op _ => false

/-- Whether the last token of a text is a name and no blank stands behind it. -/
def endsInName (cs : List Char) : Bool :=
  match ofChars cs with
  | .ok ts => ts.getLast?.any isName && cs.getLast?.any isWordChar
  | .error _ => false

theorem isWordChar_of_isBlank {c : Char} (h : isBlank c = true) : isWordChar c = false := by
  refine Bool.eq_false_iff.mpr fun hword => ?_
  exact Bool.false_ne_true ((IsVisible.of_isWordChar hword).2.symm.trans h)

section Ends

variable {ts : List Token} {cs rest : List Char}

theorem LaidOut.endsInName_eq (h : LaidOut ts cs) :
    endsInName cs = (ts.getLast?.any isName && cs.getLast?.any isWordChar) := by
  rw [endsInName, ofChars_eq_ok_iff.mpr h]

theorem endsInName_nil : endsInName [] = false := by
  rw [LaidOut.nil.endsInName_eq]
  rfl

theorem LaidOut.endsInName_blank {c : Char} (hc : isBlank c = true) (h : LaidOut ts cs) :
    endsInName (c :: cs) = endsInName cs := by
  rw [(h.blank hc).endsInName_eq, h.endsInName_eq]
  cases cs with
  | nil =>
    rw [List.getLast?_singleton, Option.any_some, isWordChar_of_isBlank hc, Bool.and_false]
    exact (Bool.and_false _).symm
  | cons d cs => rw [List.getLast?_cons_cons]

/-- A text without tokens is blank to its end. -/
theorem LaidOut.not_isWordChar_last (h : LaidOut [] cs) : cs.getLast?.any isWordChar = false := by
  have hblank := List.filter_eq_nil_iff.mp h.flatMap_text.symm
  cases hlast : cs.getLast? with
  | none => rfl
  | some c =>
    have hc := hblank c (List.mem_of_getLast? hlast)
    rw [Bool.not_eq_true', Bool.not_eq_false] at hc
    exact isWordChar_of_isBlank hc

variable {t : Token} (hshape : t.IsShaped)

include hshape

/-- A token alone. -/
theorem endsInName_text (hlongest : t.IsLongest []) : endsInName t.text.toList = t.isName := by
  have h : LaidOut [t] t.text.toList := .token hshape hlongest (List.append_nil _) .nil
  rw [h.endsInName_eq, List.getLast?_singleton, Option.any_some]
  cases t with
  | numeral _ | op _ => rfl
  | word text =>
    obtain ⟨c, cs, hchars, -⟩ := id hshape
    have hne : text.toList ≠ [] := by
      rw [hchars]
      exact List.cons_ne_nil _ _
    show (true && text.toList.getLast?.any isWordChar) = true
    rw [Bool.true_and, List.getLast?_eq_some_getLast hne, Option.any_some]
    exact mem_word hshape (List.getLast_mem hne)

theorem LaidOut.endsInName_token (hlongest : t.IsLongest rest) (hrest : rest ≠ [])
    (h : LaidOut ts rest) :
    endsInName (t.text.toList ++ rest) = endsInName rest := by
  rw [(h.token hshape hlongest rfl).endsInName_eq, h.endsInName_eq,
    List.getLast?_append_of_ne_nil _ hrest]
  cases ts with
  | nil => rw [h.not_isWordChar_last, Bool.and_false, Bool.and_false]
  | cons u ts => rw [List.getLast?_cons_cons]

end Ends

/-! ## Letters -/

/-- A letter in a numeral is the one that begins its power of ten. -/
theorem IsNumeral.isPower_of_letter {text : String} (h : IsNumeral text) {c : Char}
    (hc : isWordStart c = true) {front behind : List Char}
    (htext : text.toList = front ++ c :: behind) : IsPower (c :: behind) := by
  obtain ⟨-, hmantissa, power, hchars, hpower⟩ := h.exists_power
  have hnotmantissa : c ∉ mantissaOf text := fun hmem =>
    Bool.false_ne_true ((isMantissaChar_of_isWordStart hc).symm.trans (hmantissa c hmem))
  rcases List.append_eq_append_iff.mp (hchars.symm.trans htext) with
    ⟨gap, -, hgap⟩ | ⟨gap, hgap, hbehind⟩
  · -- The letter stands in the power, and there it can only be the first character.
    rcases hpower with rfl | hpower
    · exact absurd hgap (by simp)
    obtain ⟨e, sign, digits, rfl, -, hsign, -, hdigits⟩ := id hpower
    cases gap with
    | nil => rwa [hgap, List.nil_append] at hpower
    | cons d gap =>
      have hmem : c ∈ sign ++ digits := by
        rw [(List.cons.inj hgap).2]
        exact List.mem_append_right gap List.mem_cons_self
      rcases List.mem_append.mp hmem with hmem | hmem
      · rcases hsign with rfl | rfl | rfl
        · exact absurd hmem List.not_mem_nil
        all_goals
          rw [List.mem_singleton.mp hmem] at hc
          exact absurd hc (by decide)
      · have hdigit := isMantissaChar_of_isDigit (hdigits c hmem)
        exact absurd ((isMantissaChar_of_isWordStart hc).symm.trans hdigit) Bool.false_ne_true
  · cases gap with
    | nil =>
      rw [List.nil_append] at hbehind
      rcases hpower with rfl | hpower
      · exact absurd hbehind.symm (by simp)
      · rwa [hbehind]
    | cons d gap =>
      rw [List.cons_append, List.cons.injEq] at hbehind
      refine absurd ?_ hnotmantissa
      rw [hgap, hbehind.1]
      exact List.mem_append_right front List.mem_cons_self

/-- No power of ten begins with another letter. -/
theorem splitPower_of_not_mem {c : Char} (hc : c ∉ ['e', 'E']) (rest : List Char) :
    (splitPower (c :: rest)).1 = [] := by
  have hne : ¬(c = 'e' ∨ c = 'E') := by simpa using hc
  simp [splitPower, hne]

section Letter

variable {c : Char} {rest : List Char} (hc : isWordStart c = true)
variable (hpower : (splitPower (c :: rest)).1 = [])
variable {ts us : List Token} {cs : List Char}

include hc hpower

/-- A name is as long as it can be only if something separates it from the letter. -/
theorem isLongest_before_letter {t : Token} (hshape : t.IsShaped) (hlongest : t.IsLongest cs) :
    t.IsLongest (cs ++ c :: rest) ↔ (t.isName = true → cs ≠ []) := by
  cases t with
  | numeral text =>
    refine ⟨fun _ h => Bool.noConfusion h, fun _ => ?_⟩
    refine hlongest.append hshape fun u hu front behind htext hbehind => ?_
    cases u with
    | numeral longer =>
      -- What the numeral has from the letter on would be a power of ten.
      obtain ⟨behind', rfl⟩ := hbehind
      have hle := length_power_le (IsNumeral.isPower_of_letter hu hc htext) behind'
      rw [List.cons_append, hpower] at hle
      exact absurd hle (Nat.not_succ_le_zero _)
    | word _ | op _ => rintro ⟨⟩
  | op d => exact ⟨fun _ h => Bool.noConfusion h, fun _ => isLongest_op _ hshape⟩
  | word text =>
    rw [isLongest_word_iff hshape] at hlongest ⊢
    constructor
    · intro h _ hcs
      subst hcs
      exact Bool.false_ne_true ((h c rfl).symm.trans (isWordChar_of_isWordStart hc))
    · intro hne d hd
      rw [List.head?_append_of_ne_nil _ (hne rfl)] at hd
      exact hlongest d hd

/-- Of a text with these tokens and one that begins with the letter, the tokens stand side by side
exactly if no name takes the letter in. -/
theorem LaidOut.append_iff (h : LaidOut ts cs) :
    LaidOut (ts ++ us) (cs ++ c :: rest) ↔ endsInName cs = false ∧ LaidOut us (c :: rest) := by
  induction h with
  | nil => simp [endsInName_nil]
  | blank hd h ih => rw [List.cons_append, blank_iff hd, ih, h.endsInName_blank hd]
  | @token t _ cs ts hshape hlongest hsplit h ih =>
    subst hsplit
    rw [List.cons_append, List.append_assoc, token_iff, ih,
      isLongest_before_letter hc hpower hshape hlongest]
    by_cases hcs : cs = []
    · subst hcs
      rw [List.append_nil, endsInName_text hshape hlongest, endsInName_nil]
      simp [hshape]
    · rw [h.endsInName_token hshape hlongest hcs]
      simp [hshape, hcs]

end Letter

/-! ## Names that become one -/

/-- A name goes on with letters, digits and underscores. -/
theorem IsWord.append {text more : String} (h : IsWord text)
    (hmore : ∀ c ∈ more.toList, isWordChar c = true) : IsWord (text ++ more) := by
  obtain ⟨c, cs, hchars, hc, hcs⟩ := h
  refine ⟨c, cs ++ more.toList, ?_, hc, List.forall_mem_append.mpr ⟨hcs, hmore⟩⟩
  rw [String.toList_append, hchars, List.cons_append]

/-- A name at the end of a text takes in the name that begins right behind it. -/
theorem LaidOut.append_joined {ts us : List Token} {cs rest : List Char} {name : String}
    (hname : IsWord name) (hpower : (splitPower (name.toList ++ rest)).1 = [])
    (hrest : ∀ c, rest.head? = some c → isWordChar c = false) (h : LaidOut ts cs)
    (hends : endsInName cs = true) (hus : LaidOut us rest) :
    ∃ front text, ts = front ++ [.word text] ∧
      LaidOut (front ++ .word (text ++ name) :: us) (cs ++ (name.toList ++ rest)) := by
  have hletters : ∀ c ∈ name.toList, isWordChar c = true := fun c hc => mem_word hname hc
  obtain ⟨c, more, hchars, hc, -⟩ := id hname
  rw [hchars, List.cons_append] at hpower
  induction h with
  | nil => exact absurd (endsInName_nil.symm.trans hends) Bool.false_ne_true
  | blank hd h ih =>
    rw [h.endsInName_blank hd] at hends
    obtain ⟨front, text, hfront, hjoined⟩ := ih hends
    exact ⟨front, text, hfront, .blank hd hjoined⟩
  | @token t _ cs ts hshape hlongest hsplit h ih =>
    subst hsplit
    by_cases hcs : cs = []
    · -- The last token, which has to be a name.
      subst hcs
      obtain rfl := h.unique .nil
      rw [List.append_nil, endsInName_text hshape hlongest] at hends
      cases t with
      | word text =>
        refine ⟨[], text, rfl, ?_⟩
        have hjoined : IsWord (text ++ name) := IsWord.append hshape hletters
        refine .token hjoined ((isLongest_word_iff hjoined).mpr hrest) ?_ hus
        show (text ++ name).toList ++ rest = text.toList ++ [] ++ (name.toList ++ rest)
        rw [String.toList_append, List.append_nil, List.append_assoc]
      | numeral _ | op _ => exact absurd hends Bool.false_ne_true
    · rw [h.endsInName_token hshape hlongest hcs] at hends
      obtain ⟨front, text, hfront, hjoined⟩ := ih hends
      refine ⟨t :: front, text, by rw [hfront, List.cons_append], ?_⟩
      refine .token hshape ?_ (List.append_assoc ..).symm hjoined
      rw [hchars, List.cons_append]
      exact (isLongest_before_letter hc hpower hshape hlongest).mpr fun _ => hcs

end Reckoner.Token
