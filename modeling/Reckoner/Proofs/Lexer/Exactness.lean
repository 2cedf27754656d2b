/-
What the lexer makes of a line, exactly.

How tokens lie in a line is described without the lexer: blanks and tokens follow each other and
leave nothing out, and each token is the longest one that begins where it begins. A line has at most
one such layout, since a character begins tokens of one kind only, and two longest ones have the same
length. The lexer finds it if every character belongs to some class, and otherwise gives the first
one that belongs to none. No letter it looks ahead at gets lost: where no power of ten follows, it
begins a name.
-/
import Reckoner.Proofs.Lexer.Shapes

set_option autoImplicit false

namespace Reckoner.Token

/-! ## Texts of tokens -/

theorem toList_text_numeral (cs : List Char) : (numeral (String.ofList cs)).text.toList = cs :=
  String.toList_ofList

theorem toList_text_word (cs : List Char) : (word (String.ofList cs)).text.toList = cs :=
  String.toList_ofList

theorem toList_text_op (c : Char) : (op c).text.toList = [c] :=
  String.toList_ofList

/-- A numeral is made of digits, points, and the letter and the sign of a power of ten. -/
theorem mem_numeral {text : String} {c : Char} (h : IsNumeral text) (hc : c ∈ text.toList) :
    isMantissaChar c = true ∨ c ∈ ['e', 'E', '+', '-'] := by
  obtain ⟨first, mantissa, power, hchars, hfirst, hmantissa, hpower⟩ := h
  rw [hchars] at hc
  rcases List.mem_cons.mp hc with rfl | hc
  · exact Or.inl hfirst
  rcases List.mem_append.mp hc with hc | hc
  · exact Or.inl (hmantissa c hc)
  rcases hpower with rfl | ⟨e, sign, digits, rfl, he, hsign, -, hdigits⟩
  · exact absurd hc List.not_mem_nil
  rcases List.mem_cons.mp hc with rfl | hc
  · rcases he with rfl | rfl
    all_goals exact Or.inr (by decide)
  rcases List.mem_append.mp hc with hc | hc
  · rcases hsign with rfl | rfl | rfl
    · exact absurd hc List.not_mem_nil
    all_goals
      rw [List.mem_singleton.mp hc]
      exact Or.inr (by decide)
  · refine Or.inl ?_
    rw [isMantissaChar, hdigits c hc, Bool.true_or]

/-- What starts a name may also go on with one. -/
theorem isWordChar_of_isWordStart {c : Char} (h : isWordStart c = true) : isWordChar c = true := by
  rw [isWordStart, Bool.or_eq_true] at h
  rw [isWordChar, Char.isAlphanum, Bool.or_assoc, Bool.or_left_comm, Bool.or_eq_true,
    Bool.or_eq_true]
  exact Or.inr h

theorem mem_word {text : String} {c : Char} (h : IsWord text) (hc : c ∈ text.toList) :
    isWordChar c = true := by
  obtain ⟨first, rest, hchars, hfirst, hrest⟩ := h
  rw [hchars] at hc
  rcases List.mem_cons.mp hc with rfl | hc
  · exact isWordChar_of_isWordStart hfirst
  · exact hrest c hc

/-! ## The characters of a line -/

/-- The characters that a line may be made of: blanks, ASCII letters and digits, points, underscores,
and those that stand for themselves. -/
def isLexical (c : Char) : Bool :=
  isBlank c || c.isAlphanum || c == '.' || c == '_' || isOperator c

/-- Every such character is a blank or begins a token. -/
theorem isLexical_eq (c : Char) :
    isLexical c = (isBlank c || isMantissaChar c || isWordStart c || isOperator c) := by
  unfold isLexical isMantissaChar isWordStart Char.isAlphanum
  ac_rfl

/-- The characters that tokens are made of. -/
def IsVisible (c : Char) : Prop :=
  isLexical c = true ∧ isBlank c = false

namespace IsVisible

variable {c : Char}

theorem of_isMantissaChar (h : isMantissaChar c = true) : IsVisible c := by
  have hcode := toNat_of_isMantissaChar h
  refine ⟨?_, isBlank_of_visible (by omega) (by omega)⟩
  rw [isLexical_eq, h, Bool.or_true]
  rfl

theorem of_isWordStart (h : isWordStart c = true) : IsVisible c := by
  have hcode := toNat_of_isWordStart h
  refine ⟨?_, isBlank_of_visible (by omega) (by omega)⟩
  rw [isLexical_eq, h, Bool.or_true]
  rfl

theorem of_isWordChar (h : isWordChar c = true) : IsVisible c := by
  by_cases hdigit : c.isDigit = true
  · exact of_isMantissaChar (by rw [isMantissaChar, hdigit, Bool.true_or])
  · refine of_isWordStart ?_
    rw [isWordChar, Char.isAlphanum, Bool.eq_false_iff.mpr hdigit, Bool.or_false] at h
    exact h

theorem of_isOperator (h : isOperator c = true) : IsVisible c := by
  refine ⟨?_, (classes_of_isOperator h).1⟩
  rw [isLexical_eq, h, Bool.or_true]

/-- A token is made of visible characters. -/
theorem of_mem_text {t : Token} (h : t.IsShaped) (hc : c ∈ t.text.toList) : IsVisible c := by
  cases t with
  | numeral text =>
    rcases mem_numeral h hc with hmantissa | hpower
    · exact of_isMantissaChar hmantissa
    · have hall : ∀ d ∈ ['e', 'E', '+', '-'], (isWordChar d || isOperator d) = true :=
        List.all_eq_true.mp (by decide)
      exact (Bool.or_eq_true_iff.mp (hall c hpower)).elim of_isWordChar of_isOperator
  | word text => exact of_isWordChar (mem_word h hc)
  | op d =>
    rw [toList_text_op] at hc
    rw [List.mem_singleton.mp hc]
    exact of_isOperator h

end IsVisible

/-! ## The first character of a token -/

/-- To which classes the first character of a token of this kind belongs: that of mantissas, and that
of the letters a name starts with. -/
def opening : Token → Bool × Bool
  | .numeral _ => (true, false)
  | .word _ => (false, true)
  | .op _ => (false, false)

/-- No token is empty, and its first character tells its kind, since none starts both a numeral and
a name. -/
theorem exists_text_eq_cons {t : Token} (h : t.IsShaped) :
    ∃ c cs, t.text.toList = c :: cs ∧ (isMantissaChar c, isWordStart c) = t.opening := by
  cases t with
  | numeral text =>
    obtain ⟨c, mantissa, power, hchars, hc, -, -⟩ := h
    refine ⟨c, _, hchars, ?_⟩
    have hword : isWordStart c = false := by
      refine Bool.eq_false_iff.mpr fun hword => ?_
      exact Bool.false_ne_true ((isMantissaChar_of_isWordStart hword).symm.trans hc)
    rw [hc, hword]
    rfl
  | word text =>
    obtain ⟨c, cs, hchars, hc, -⟩ := h
    refine ⟨c, cs, hchars, ?_⟩
    rw [hc, isMantissaChar_of_isWordStart hc]
    rfl
  | op c =>
    obtain ⟨-, hmantissa, hword⟩ := classes_of_isOperator h
    refine ⟨c, [], toList_text_op c, ?_⟩
    rw [hmantissa, hword]
    rfl

/-- Tokens that begin with the same character are of one kind. -/
theorem opening_eq {t u : Token} {c : Char} {cs ds : List Char} (ht : t.IsShaped) (hu : u.IsShaped)
    (htext : t.text.toList = c :: cs) (hutext : u.text.toList = c :: ds) :
    t.opening = u.opening := by
  obtain ⟨c', cs', ht', hopen⟩ := exists_text_eq_cons ht
  obtain ⟨d', ds', hu', hopen'⟩ := exists_text_eq_cons hu
  rw [← hopen, ← hopen', (List.cons.inj (ht'.symm.trans htext)).1,
    (List.cons.inj (hu'.symm.trans hutext)).1]

/-- So are tokens that begin at the same place of a line. -/
theorem opening_of_prefix {t u : Token} {rest : List Char} (ht : t.IsShaped) (hu : u.IsShaped)
    (h : u.text.toList <+: t.text.toList ++ rest) : u.opening = t.opening := by
  obtain ⟨c, cs, htext, -⟩ := exists_text_eq_cons ht
  obtain ⟨d, ds, hutext, -⟩ := exists_text_eq_cons hu
  rw [htext, hutext, List.cons_append] at h
  obtain ⟨rfl, -⟩ := List.cons_prefix_cons.mp h
  exact opening_eq hu ht hutext htext

/-- A token is known by its text. -/
theorem eq_of_text_eq {t u : Token} (ht : t.IsShaped) (hu : u.IsShaped)
    (h : t.text.toList = u.text.toList) : t = u := by
  obtain ⟨c, cs, htext, -⟩ := exists_text_eq_cons ht
  have hopen := opening_eq ht hu htext (h.symm.trans htext)
  have htexts : t.text = u.text := String.toList_inj.mp h
  cases t with
  | numeral text =>
    cases u with
    | numeral text' => exact congrArg numeral htexts
    | word _ | op _ => exact absurd hopen (by rintro ⟨⟩)
  | word text =>
    cases u with
    | word text' => exact congrArg word htexts
    | numeral _ | op _ => exact absurd hopen (by rintro ⟨⟩)
  | op c =>
    cases u with
    | op c' =>
      rw [toList_text_op, toList_text_op] at h
      rw [List.singleton_inj.mp h]
    | numeral _ | word _ => exact absurd hopen (by rintro ⟨⟩)

/-! ## Layouts -/

/-- Whether a token is the longest one that begins where it begins, with these characters behind it. -/
def IsLongest (t : Token) (rest : List Char) : Prop :=
  ∀ u : Token, u.IsShaped → u.text.toList <+: t.text.toList ++ rest →
    u.text.toList.length ≤ t.text.toList.length

/-- Tokens that lie in a line in this order, as long as they can be, with nothing but blanks between
them. -/
inductive LaidOut : List Token → List Char → Prop where
  | nil : LaidOut [] []
  | blank {c : Char} {cs : List Char} {ts : List Token} (hc : isBlank c = true)
    (h : LaidOut ts cs) : LaidOut ts (c :: cs)
  | token {t : Token} {cs rest : List Char} {ts : List Token} (hshape : t.IsShaped)
    (hlongest : t.IsLongest rest) (hsplit : t.text.toList ++ rest = cs) (h : LaidOut ts rest) :
    LaidOut (t :: ts) cs

namespace LaidOut

variable {ts us : List Token} {cs : List Char}

/-- A line in which tokens are laid out has no stray character. -/
theorem isLexical (h : LaidOut ts cs) : ∀ c ∈ cs, isLexical c = true := by
  induction h with
  | nil => exact fun c hc => absurd hc List.not_mem_nil
  | blank hc _ ih =>
    refine List.forall_mem_cons.mpr ⟨?_, ih⟩
    rw [Token.isLexical, hc]
    rfl
  | token hshape _ hsplit _ ih =>
    subst hsplit
    exact List.forall_mem_append.mpr ⟨fun c hc => (IsVisible.of_mem_text hshape hc).1, ih⟩

/-- Put together, the tokens are the line without its blanks. -/
theorem flatMap_text (h : LaidOut ts cs) :
    ts.flatMap (·.text.toList) = cs.filter (!isBlank ·) := by
  induction h with
  | nil => rfl
  | blank hc _ ih => rw [ih, List.filter_cons_of_neg (by rw [hc]; decide)]
  | @token t _ rest ts hshape _ hsplit _ ih =>
    subst hsplit
    have hvisible : t.text.toList.filter (!isBlank ·) = t.text.toList := by
      refine List.filter_eq_self.mpr fun c hc => ?_
      rw [(IsVisible.of_mem_text hshape hc).2]
      rfl
    rw [List.flatMap_cons, ih, List.filter_append, hvisible]

/-- Every token has the shape of its kind, and its characters stand in the line side by side. -/
theorem comesFrom (h : LaidOut ts cs) : ∀ t ∈ ts, t.ComesFrom cs := by
  induction h with
  | nil => exact fun t ht => absurd ht List.not_mem_nil
  | blank _ _ ih => exact fun t ht => (ih t ht).mono (List.suffix_cons _ _).isInfix
  | token hshape _ hsplit _ ih =>
    subst hsplit
    refine List.forall_mem_cons.mpr ⟨⟨hshape, (List.prefix_append _ _).isInfix⟩, fun t ht => ?_⟩
    exact (ih t ht).mono (List.suffix_append _ _).isInfix

theorem isShaped (h : LaidOut ts cs) : ∀ t ∈ ts, t.IsShaped :=
  fun t ht => (h.comesFrom t ht).1

/-- No token begins with a blank. -/
theorem not_isBlank_of_token {t : Token} {c : Char} {rest : List Char} (hshape : t.IsShaped)
    (hsplit : t.text.toList ++ rest = c :: cs) : isBlank c = false := by
  obtain ⟨d, ds, htext, -⟩ := exists_text_eq_cons hshape
  rw [htext] at hsplit
  obtain ⟨rfl, -⟩ := List.cons.inj hsplit
  refine (IsVisible.of_mem_text hshape ?_).2
  rw [htext]
  exact List.mem_cons_self

/-- A blank in front plays no part. -/
theorem blank_iff {c : Char} (hc : isBlank c = true) : LaidOut ts (c :: cs) ↔ LaidOut ts cs := by
  refine ⟨fun h => ?_, .blank hc⟩
  cases h with
  | blank _ h => exact h
  | token hshape _ hsplit _ =>
    exact absurd (hc.symm.trans (not_isBlank_of_token hshape hsplit)) Bool.noConfusion

/-- A token lies in front exactly if it is as long as it can be and the others lie behind it. -/
theorem token_iff {t : Token} {rest : List Char} :
    LaidOut (t :: ts) (t.text.toList ++ rest) ↔
      t.IsShaped ∧ t.IsLongest rest ∧ LaidOut ts rest := by
  refine ⟨fun h => ?_, fun ⟨hshape, hlongest, h⟩ => .token hshape hlongest rfl h⟩
  have hshape := h.isShaped t List.mem_cons_self
  generalize hcs : t.text.toList ++ rest = cs at h
  cases h with
  | blank hc _ => exact absurd (hc.symm.trans (not_isBlank_of_token hshape hcs)) Bool.noConfusion
  | token _ hlongest hsplit h =>
    obtain rfl := List.append_cancel_left (hsplit.trans hcs.symm)
    exact ⟨hshape, hlongest, h⟩

/-- Of two longest tokens at one place neither is longer, so they are the same. -/
theorem token_unique {t u : Token} {rest rest' : List Char} (ht : t.IsShaped) (hu : u.IsShaped)
    (hlongest : t.IsLongest rest) (hlongest' : u.IsLongest rest')
    (h : t.text.toList ++ rest = u.text.toList ++ rest') : t = u ∧ rest = rest' := by
  have hle := hlongest u hu (h ▸ List.prefix_append _ _)
  have hge := hlongest' t ht (h ▸ List.prefix_append _ _)
  obtain ⟨htext, hrest⟩ := List.append_inj h (Nat.le_antisymm hge hle)
  exact ⟨eq_of_text_eq ht hu htext, hrest⟩

/-- No other tokens are laid out in the line. -/
theorem unique (h : LaidOut ts cs) (h' : LaidOut us cs) : ts = us := by
  -- On the first layout, by what it has in front: nothing, a blank, or a token.
  induction h generalizing us with
  | nil =>
    cases h' with
    | nil => rfl
    | token hshape _ hsplit _ =>
      obtain ⟨c, cs, htext, -⟩ := exists_text_eq_cons hshape
      rw [htext] at hsplit
      exact absurd hsplit (List.cons_ne_nil _ _)
  | blank hc _ ih => exact ih ((blank_iff hc).mp h')
  | token hshape hlongest hsplit _ ih =>
    cases h' with
    | nil =>
      obtain ⟨c, cs, htext, -⟩ := exists_text_eq_cons hshape
      rw [htext] at hsplit
      exact absurd hsplit (List.cons_ne_nil _ _)
    | blank hc _ =>
      exact absurd (hc.symm.trans (not_isBlank_of_token hshape hsplit)) Bool.noConfusion
    | token hshape' hlongest' hsplit' h' =>
      obtain ⟨rfl, rfl⟩ :=
        token_unique hshape hshape' hlongest hlongest' (hsplit.trans hsplit'.symm)
      rw [ih h']

end LaidOut

/-! ## The runs of the lexer are longest -/

/-- A run at the beginning is part of the longest one. -/
theorem length_le_takeWhile {p : Char → Bool} {run cs : List Char} (h : run <+: cs)
    (hrun : ∀ c ∈ run, p c = true) : run.length ≤ (cs.takeWhile p).length := by
  obtain ⟨rest, rfl⟩ := h
  rw [List.takeWhile_append_of_pos hrun, List.length_append]
  exact Nat.le_add_right _ _

/-- A power of ten at the beginning is no longer than the one that is split off. -/
theorem length_power_le {power : List Char} (h : IsPower power) (rest : List Char) :
    power.length ≤ (splitPower (power ++ rest)).1.length := by
  obtain ⟨e, sign, digits, rfl, he, hsign, hdigits, hall⟩ := h
  have hsplit : splitSign (sign ++ digits ++ rest) = (sign, digits ++ rest) := by
    rw [List.append_assoc]
    exact splitSign_run hsign hdigits hall
  have htake : (digits ++ rest).takeWhile Char.isDigit =
      digits ++ rest.takeWhile Char.isDigit := List.takeWhile_append_of_pos hall
  have hne : digits ++ rest.takeWhile Char.isDigit ≠ [] :=
    List.append_ne_nil_of_left_ne_nil hdigits _
  rw [List.cons_append, splitPower, hsplit, htake, if_pos ⟨he, hne⟩]
  simp only [List.length_cons, List.length_append]
  omega

/-- Nor is a numeral at the beginning longer than the one that is split off. -/
theorem length_numeral_le {mantissa power cs : List Char}
    (hmantissa : ∀ c ∈ mantissa, isMantissaChar c = true) (hpower : power = [] ∨ IsPower power)
    (h : mantissa ++ power <+: cs) :
    (mantissa ++ power).length ≤ (splitNumeral cs).1.length := by
  rw [splitNumeral, List.length_append, List.length_append]
  rcases hpower with rfl | hpower
  · have hle := length_le_takeWhile ((List.prefix_append _ _).trans h) hmantissa
    exact Nat.le_trans hle (Nat.le_add_right _ _)
  · -- The letter of the power ends the mantissa, so the power is what is split behind it.
    obtain ⟨rest, rfl⟩ := h
    have hstop : ∀ c, (power ++ rest).head? = some c → isMantissaChar c = false := by
      obtain ⟨e, sign, digits, rfl, rfl | rfl, -⟩ := hpower
      all_goals
        intro c hc
        obtain rfl := Option.some.inj hc
        decide
    rw [List.append_assoc]
    obtain ⟨htake, hdrop⟩ := takeWhile_dropWhile_run hmantissa hstop
    rw [htake, hdrop]
    exact Nat.add_le_add_left (length_power_le hpower rest) _

/-- A name is as long as it can be if no character that goes on with it stands behind. -/
theorem isLongest_word_iff {text : String} {rest : List Char} (h : IsWord text) :
    (word text).IsLongest rest ↔ ∀ c, rest.head? = some c → isWordChar c = false := by
  have hshape : (word text).IsShaped := h
  obtain ⟨first, cs, hchars, hfirst, hcs⟩ := h
  have htext : (word text).text.toList = first :: cs := hchars
  constructor
  · -- With one more character it would be a longer name.
    intro hlongest c hc
    obtain ⟨tail, rfl⟩ := List.head?_eq_some_iff.mp hc
    refine Bool.eq_false_iff.mpr fun hword => ?_
    have hlonger : (word (String.ofList (first :: (cs ++ [c])))).IsShaped :=
      ⟨first, cs ++ [c], String.toList_ofList, hfirst,
        List.forall_mem_append.mpr ⟨hcs, List.forall_mem_singleton.mpr hword⟩⟩
    have hprefix : first :: (cs ++ [c]) <+: first :: cs ++ c :: tail := ⟨tail, by simp⟩
    rw [← toList_text_word (first :: (cs ++ [c])), ← htext] at hprefix
    have hle := hlongest _ hlonger hprefix
    rw [toList_text_word, htext, List.length_cons, List.length_cons, List.length_append] at hle
    exact absurd hle (Nat.not_succ_le_self _)
  · intro hrest u hu hprefix
    have hopen := opening_of_prefix hshape hu hprefix
    cases u with
    | word longer =>
      obtain ⟨d, ds, hlonger, -, hds⟩ := hu
      have hutext : (word longer).text.toList = d :: ds := hlonger
      rw [htext, hutext, List.cons_append] at hprefix
      rw [htext, hutext]
      have hle := length_le_takeWhile (List.cons_prefix_cons.mp hprefix).2 hds
      rw [(takeWhile_dropWhile_run hcs hrest).1] at hle
      exact Nat.succ_le_succ hle
    | numeral _ | op _ => exact absurd hopen (by rintro ⟨⟩)

section Front

variable {c : Char} (cs : List Char)

/-- The numeral that the lexer takes is as long as it can be. -/
theorem isLongest_numeral (hc : isMantissaChar c = true) :
    (numeral (String.ofList (c :: (splitNumeral cs).1))).IsLongest (splitNumeral cs).2 := by
  have hshape : (numeral (String.ofList (c :: (splitNumeral cs).1))).IsShaped :=
    isNumeral_splitNumeral hc cs
  intro u hu hprefix
  have hopen := opening_of_prefix hshape hu hprefix
  cases u with
  | numeral longer =>
    obtain ⟨d, mantissa, power, hchars, -, hmantissa, hpower⟩ := hu
    rw [toList_text_numeral, text, hchars, List.cons_append, splitNumeral_append] at hprefix
    rw [toList_text_numeral, text, hchars]
    exact Nat.succ_le_succ (length_numeral_le hmantissa hpower (List.cons_prefix_cons.mp hprefix).2)
  | word _ | op _ => exact absurd hopen (by rintro ⟨⟩)

/-- So is the name, since the run that it takes ends where no character goes on with it. -/
theorem isLongest_word (hc : isWordStart c = true) :
    (word (String.ofList (c :: (splitWord cs).1))).IsLongest (splitWord cs).2 := by
  refine (isLongest_word_iff (isWord_splitWord hc cs)).mpr fun d hd => ?_
  have hstop := List.head?_dropWhile_not isWordChar cs
  rw [show (cs.dropWhile isWordChar).head? = some d from hd] at hstop
  exact hstop

/-- No longer token begins with a character that stands for itself. -/
theorem isLongest_op (hc : isOperator c = true) : (op c).IsLongest cs := by
  have hshape : (op c).IsShaped := hc
  intro u hu hprefix
  have hopen := opening_of_prefix hshape hu hprefix
  cases u with
  | op d =>
    rw [toList_text_op, toList_text_op]
    exact Nat.le_refl _
  | numeral _ | word _ => exact absurd hopen (by rintro ⟨⟩)

end Front

/-! ## The lexer -/

/-- What the lexer may make of a line: tokens that are laid out in it, or the first character that
none can be made of. -/
def IsExact (cs : List Char) : Except Char (List Token) → Prop
  | .ok ts => LaidOut ts cs
  | .error c => cs.find? (!isLexical ·) = some c

namespace IsExact

variable {cs rest : List Char} {outcome : Except Char (List Token)}

/-- A blank in front is no stray character, and leaves the tokens as they are. -/
theorem blank {c : Char} (hc : isBlank c = true) (h : IsExact cs outcome) :
    IsExact (c :: cs) outcome := by
  rcases outcome with d | ts
  · have hlexical : isLexical c = true := by
      rw [isLexical, hc]
      rfl
    refine Eq.trans (List.find?_cons_of_neg ?_) h
    rw [hlexical]
    decide
  · exact .blank hc h

/-- A token in front hides no stray character. -/
theorem token {t : Token} (hshape : t.IsShaped) (hlongest : t.IsLongest rest)
    (hsplit : t.text.toList ++ rest = cs) (h : IsExact rest outcome) :
    IsExact cs (do let ts ← outcome; return t :: ts) := by
  rcases outcome with d | ts
  · subst hsplit
    have hnone : t.text.toList.find? (!isLexical ·) = none := by
      refine List.find?_eq_none.mpr fun c hc => ?_
      rw [(IsVisible.of_mem_text hshape hc).1]
      decide
    show (t.text.toList ++ rest).find? (!isLexical ·) = some d
    rw [List.find?_append, hnone]
    exact h
  · exact .token hshape hlongest hsplit h

end IsExact

/-- What the lexer makes of a line is exact. -/
theorem isExact_ofChars (cs : List Char) : IsExact cs (ofChars cs) := by
  -- By the recursion of the lexer, which takes one token off the front in each step.
  induction cs using ofChars.induct with
  | case1 =>
    rw [ofChars]
    exact .nil
  | case2 c cs hblank ih =>
    rw [ofChars, if_pos hblank]
    exact ih.blank hblank
  | case3 c cs hblank hmantissa ih =>
    rw [ofChars, if_neg hblank, if_pos hmantissa]
    refine ih.token (isNumeral_splitNumeral hmantissa cs) (isLongest_numeral cs hmantissa) ?_
    rw [toList_text_numeral, List.cons_append, splitNumeral_append]
  | case4 c cs hblank hmantissa hword ih =>
    rw [ofChars, if_neg hblank, if_neg hmantissa, if_pos hword]
    refine ih.token (isWord_splitWord hword cs) (isLongest_word cs hword) ?_
    rw [toList_text_word, List.cons_append, splitWord_append]
  | case5 c cs hblank hmantissa hword hop ih =>
    rw [ofChars, if_neg hblank, if_neg hmantissa, if_neg hword, if_pos hop]
    exact ih.token hop (isLongest_op cs hop) (by rw [toList_text_op, List.singleton_append])
  | case6 c cs hblank hmantissa hword hop =>
    have hstray : isLexical c = false := by
      simp only [isLexical_eq, hblank, hmantissa, hword, hop, Bool.or_self]
    rw [ofChars, if_neg hblank, if_neg hmantissa, if_neg hword, if_neg hop]
    exact List.find?_cons_of_pos (by rw [hstray]; rfl)

/-- The lexer fails with the first stray character, and only if there is one. -/
theorem ofChars_eq_error_iff {cs : List Char} {c : Char} :
    ofChars cs = .error c ↔ cs.find? (!isLexical ·) = some c := by
  have hexact := isExact_ofChars cs
  constructor
  · intro h
    rwa [h] at hexact
  · intro h
    rcases hcs : ofChars cs with d | ts
    · rw [hcs] at hexact
      exact congrArg Except.error (Option.some.inj (hexact.symm.trans h))
    · -- Tokens are laid out in lexical characters only.
      rw [hcs] at hexact
      have hlexical := hexact.isLexical c (List.mem_of_find?_eq_some h)
      have hstray := List.find?_some h
      rw [hlexical] at hstray
      exact absurd hstray (by decide)

/-- Without stray characters the lexer does not fail. -/
theorem exists_ofChars {cs : List Char} (h : ∀ c ∈ cs, isLexical c = true) :
    ∃ ts, ofChars cs = .ok ts := by
  rcases hcs : ofChars cs with c | ts
  · have hfind := ofChars_eq_error_iff.mp hcs
    have hstray := List.find?_some hfind
    rw [h c (List.mem_of_find?_eq_some hfind)] at hstray
    exact absurd hstray (by decide)
  · exact ⟨ts, rfl⟩

theorem laidOut_of_ofChars {cs : List Char} {ts : List Token} (h : ofChars cs = .ok ts) :
    LaidOut ts cs := by
  have hexact := isExact_ofChars cs
  rwa [h] at hexact

theorem comesFrom_of_ofChars {cs : List Char} {ts : List Token} (h : ofChars cs = .ok ts) :
    ∀ t ∈ ts, t.ComesFrom cs :=
  (laidOut_of_ofChars h).comesFrom

/-- The lexer finds the layout of a line. -/
theorem ofChars_eq_ok_iff {cs : List Char} {ts : List Token} :
    ofChars cs = .ok ts ↔ LaidOut ts cs := by
  refine ⟨laidOut_of_ofChars, fun h => ?_⟩
  obtain ⟨us, hus⟩ := exists_ofChars h.isLexical
  rw [h.unique (laidOut_of_ofChars hus), hus]

/-- **The lexer, exactly.** It fails if a line has a character that is no blank, no ASCII letter or
digit, no point, no underscore and no operator, with the first such character. Otherwise it gives
tokens with the shapes of their kinds and without blanks inside, which make up the line without its
blanks, lie in it side by side, and are as long as they can be, each in its place. There is only one
such list of tokens. -/
theorem ofText_exact (line : String) :
    (∀ c, ofText line = .error c ↔ line.toList.find? (!isLexical ·) = some c) ∧
      ((∀ c ∈ line.toList, isLexical c = true) →
        ∃ ts, ofText line = .ok ts ∧ LaidOut ts line.toList ∧
          ts.flatMap (·.text.toList) = line.toList.filter (!isBlank ·) ∧
          ∀ t ∈ ts, t.IsShaped ∧ ∀ c ∈ t.text.toList, isBlank c = false) ∧
      ∀ ts, LaidOut ts line.toList → ofText line = .ok ts := by
  refine ⟨fun c => ofChars_eq_error_iff, fun hline => ?_, fun ts => ofChars_eq_ok_iff.mpr⟩
  obtain ⟨ts, hts⟩ := exists_ofChars hline
  have hlaid := laidOut_of_ofChars hts
  refine ⟨ts, hts, hlaid, hlaid.flatMap_text, fun t ht => ⟨hlaid.isShaped t ht, fun c hc => ?_⟩⟩
  exact (IsVisible.of_mem_text (hlaid.isShaped t ht) hc).2

/-- The letter of a power of ten that does not come begins a name. -/
example : ofText "2e+x 1.e5.5" =
    .ok [.numeral "2", .word "e", .op '+', .word "x", .numeral "1.e5", .numeral ".5"] := by
  with_unfolding_all rfl

end Reckoner.Token
