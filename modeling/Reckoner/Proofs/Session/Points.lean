/-
The points in the entry.

The key of the point does nothing where the operand being typed has one already. So no stretch of the
entry without operators ever has two: what other keys add has no point, the text of a value has at
most one, and what erasing and operators leave is a beginning of the entry.

A numeral is such a stretch, also after the entry has been prepared, since the symbols and parentheses
that are put in end every numeral. So a numeral that has no value is not one with two points. It has
no digit either: it is a single point, perhaps with a power of ten.
-/
import Reckoner.Proofs.Grammar.Spelling
import Reckoner.Proofs.Lexer.Exactness
import Reckoner.Proofs.Session.Keypad

set_option autoImplicit false

namespace Reckoner

/-! ## Points in a text -/

/-- The text of a value has a point in its mantissa only. -/
theorem HasValueForm.count_point_le {cs : List Char} (h : HasValueForm cs) :
    cs.count '.' ≤ 1 := by
  obtain ⟨negative, mantissa, power, rfl, -, hpoint, hpower⟩ := h
  have hsign : (signText negative).count '.' = 0 :=
    List.count_eq_zero.mpr fun hmem => absurd (eq_of_mem_signText hmem) (by decide)
  have hbehind : power.count '.' = 0 := by
    rcases hpower with ⟨rfl, -⟩ | ⟨sign, digits, rfl, hsign, -, hdigits⟩
    · rfl
    · rcases hsign with rfl | rfl
      all_goals simp [count_point_of_digits hdigits]
  rw [List.count_append, List.count_append, hsign, hbehind]
  omega

namespace Entry

/-- Whether every stretch of a text without operators has at most one point. -/
def OnePointEach (cs : List Char) : Prop :=
  ∀ stretch, stretch <:+: cs → (∀ c ∈ stretch, isOperator c = false) → stretch.count '.' ≤ 1

variable {cs text : List Char} {c : Char}

/-- The operand at the end reaches back as far as there is no operator. -/
theorem mem_operand {stretch : List Char} (hsuffix : stretch <:+ cs)
    (hfree : ∀ c ∈ stretch, isOperator c = false) (hc : c ∈ stretch) : c ∈ operand cs := by
  obtain ⟨front, rfl⟩ := hsuffix
  have hreverse : ∀ c ∈ stretch.reverse, (!isOperator c) = true := by
    intro c hc
    rw [hfree c (List.mem_reverse.mp hc)]
    rfl
  rw [operand, List.reverse_append, List.takeWhile_append_of_pos hreverse, List.mem_reverse]
  exact List.mem_append_left _ (List.mem_reverse.mpr hc)

namespace OnePointEach

theorem mono {part : List Char} (h : OnePointEach cs) (hpart : part <:+: cs) :
    OnePointEach part :=
  fun stretch hstretch => h stretch (hstretch.trans hpart)

theorem of_count (h : cs.count '.' ≤ 1) : OnePointEach cs :=
  fun _ hstretch _ => (hstretch.sublist.count_le '.').trans h

/-- A point may be added to an operand that has none. -/
theorem concat (h : OnePointEach cs) (hpoint : c = '.' → '.' ∉ operand cs) :
    OnePointEach (cs ++ [c]) := by
  intro stretch hstretch hfree
  rcases List.infix_concat_iff.mp hstretch with hend | hbefore
  · rcases List.suffix_concat_iff.mp hend with rfl | ⟨front, rfl, hfront⟩
    · exact Nat.zero_le 1
    have hfree' : ∀ d ∈ front, isOperator d = false := fun d hd => hfree d (by simp [hd])
    rw [List.count_append, List.count_singleton]
    by_cases hc : c = '.'
    · have hnone : front.count '.' = 0 :=
        List.count_eq_zero.mpr fun hmem => hpoint hc (mem_operand hfront hfree' hmem)
      rw [hnone, hc]
      decide
    · have hcount := h front hfront.isInfix hfree'
      rw [if_neg (by simpa using hc)]
      exact hcount
  · exact h stretch hbefore hfree

theorem append (h : OnePointEach cs) (htext : '.' ∉ text) : OnePointEach (cs ++ text) := by
  induction text using List.reverseRecOn with
  | nil => rwa [List.append_nil]
  | append_singleton text c ih =>
    rw [← List.append_assoc]
    refine (ih fun hmem => htext (List.mem_append_left _ hmem)).concat ?_
    rintro rfl
    exact absurd (by simp) htext

theorem of_not_mem (htext : '.' ∉ text) : OnePointEach text :=
  of_count (by rw [List.count_eq_zero.mpr htext]; exact Nat.zero_le 1)

/-! ### What the keys add -/

theorem addDigit (h : OnePointEach cs) (limit : Nat) (c : Char) :
    OnePointEach (addDigit limit c cs) := by
  unfold Entry.addDigit
  split_ifs with hpoint hlimit hzero
  · exact h
  · exact h
  · exact of_not_mem fun hmem => hzero.2 (List.mem_singleton.mp hmem).symm
  · exact h.concat fun hc hmem => hpoint ⟨hc, hmem⟩

theorem addOperator (h : OnePointEach cs) (fresh : Bool) {op : Char} (hop : op ≠ '.') :
    OnePointEach (addOperator fresh op cs) := by
  have hadded : ∀ front, front <+: cs → OnePointEach (front ++ [op]) :=
    fun front hfront => (h.mono hfront.isInfix).concat fun hpoint => absurd hpoint hop
  unfold Entry.addOperator
  split
  · split_ifs
    · exact hadded cs (List.prefix_refl cs)
    · exact hadded _ (prefix_dropOperators cs)
  · exact hadded cs (List.prefix_refl cs)

theorem addFunction (h : OnePointEach cs) (fresh : Bool) {call : List Char} (hcall : '.' ∉ call) :
    OnePointEach (addFunction fresh call cs) := by
  unfold Entry.addFunction
  split_ifs
  · exact of_not_mem hcall
  · dsimp only
    split_ifs
    · exact h.append (List.not_mem_cons_of_ne_of_not_mem (by decide) hcall)
    · exact h.append hcall

theorem addSymbol (h : OnePointEach cs) (htext : '.' ∉ text) :
    OnePointEach (addSymbol text cs) := by
  unfold Entry.addSymbol
  split_ifs
  · exact of_not_mem htext
  · exact h.append htext

theorem erase (h : OnePointEach cs) (library : Library) : OnePointEach (erase library cs) := by
  rcases erase_prefix_or_zero library cs with hprefix | hzero
  · exact h.mono hprefix.isInfix
  · rw [hzero]
    exact of_not_mem (by decide)

end OnePointEach

/-! ## Numerals in a prepared text -/

open Token (isMantissaChar)

/-- A symbol is replaced by characters that end every numeral. -/
theorem expand_cases (c : Char) :
    expand c = [c] ∨ expand c ≠ [] ∧ ∀ d ∈ expand c, isMantissaChar d = false := by
  unfold expand
  split
  · simp [isMantissaChar]
  · simp [isMantissaChar]
  · simp [isMantissaChar]
  · exact Or.inl rfl

variable {run : List Char}

/-- Where no character of a run can stand, there is only the empty run. -/
theorem infix_eq_nil {p : Char → Bool} (hrun : ∀ c ∈ run, p c = true)
    (htext : ∀ c ∈ text, p c = false) (h : run <:+: text) : run = [] := by
  refine List.eq_nil_iff_forall_not_mem.mpr fun c hc => ?_
  exact Bool.false_ne_true ((htext c (h.subset hc)).symm.trans (hrun c hc))

theorem prefix_of_prefix_expand (hrun : ∀ c ∈ run, isMantissaChar c = true)
    (h : run <+: cs.flatMap expand) : run <+: cs := by
  induction cs generalizing run with
  | nil => exact h
  | cons c cs ih =>
    rw [List.flatMap_cons] at h
    rcases expand_cases c with hsame | ⟨hne, hnone⟩
    · rw [hsame, List.singleton_append] at h
      rcases List.prefix_cons_iff.mp h with rfl | ⟨rest, rfl, hrest⟩
      · exact List.nil_prefix
      · exact List.cons_prefix_cons.mpr ⟨rfl, ih (List.forall_mem_cons.mp hrun).2 hrest⟩
    · obtain ⟨d, ds, hexpand⟩ := List.exists_cons_of_ne_nil hne
      rw [hexpand, List.cons_append] at h
      rcases List.prefix_cons_iff.mp h with rfl | ⟨rest, rfl, -⟩
      · exact List.nil_prefix
      · have hd := hnone d (by rw [hexpand]; exact List.mem_cons_self)
        exact absurd (hd.symm.trans (hrun d List.mem_cons_self)) Bool.false_ne_true

theorem infix_of_infix_expand (hrun : ∀ c ∈ run, isMantissaChar c = true)
    (h : run <:+: cs.flatMap expand) : run <:+: cs := by
  induction cs with
  | nil => exact h
  | cons c cs ih =>
    rw [List.flatMap_cons] at h
    rcases expand_cases c with hsame | ⟨-, hnone⟩
    · rw [hsame, List.singleton_append] at h
      rcases List.infix_cons_iff.mp h with hfront | hbehind
      · rw [← List.singleton_append, ← hsame, ← List.flatMap_cons] at hfront
        exact (prefix_of_prefix_expand hrun hfront).isInfix
      · exact List.infix_cons (ih hbehind)
    · rcases List.infix_append_iff.mp h with hnew | hbehind | ⟨front, behind, rfl, hfront, hbehind⟩
      · rw [infix_eq_nil hrun hnone hnew]
        exact List.nil_infix
      · exact List.infix_cons (ih hbehind)
      · obtain rfl : front = [] :=
          infix_eq_nil (fun d hd => hrun d (List.mem_append_left _ hd)) hnone hfront.isInfix
        exact List.infix_cons (ih hbehind.isInfix)

/-- Preparing a text makes no run of digits and points longer. -/
theorem infix_of_infix_prepare (hrun : ∀ c ∈ run, isMantissaChar c = true)
    (h : run <:+: prepare cs) : run <:+: cs := by
  have hclosing : ∀ c ∈ missingParentheses (cs.flatMap expand), isMantissaChar c = false := by
    intro c hc
    rw [List.eq_of_mem_replicate hc]
    decide
  rcases List.infix_append_iff.mp h with hfront | hbehind | ⟨front, behind, rfl, hfront, hbehind⟩
  · exact infix_of_infix_expand hrun hfront
  · rw [infix_eq_nil hrun hclosing hbehind]
    exact List.nil_infix
  · obtain rfl : behind = [] :=
      infix_eq_nil (fun d hd => hrun d (List.mem_append_right _ hd)) hclosing hbehind.isInfix
    rw [List.append_nil] at hrun ⊢
    exact infix_of_infix_expand hrun hfront.isInfix

/-- A numeral in the prepared text that has no value is a single point, perhaps with a power of ten. -/
theorem OnePointEach.numeral_without_value (h : OnePointEach cs) {text : String}
    (hshape : Token.IsNumeral text) (hplace : text.toList <:+: prepare cs)
    (hvalue : Value.ofNumeral? text = none) :
    ∃ power, text.toList = '.' :: power ∧ (power = [] ∨ Token.IsPower power) := by
  obtain ⟨hne, hmantissa, power, htext, hpower⟩ := hshape.exists_power
  have hstretch : Token.mantissaOf text <:+: cs := by
    refine infix_of_infix_prepare hmantissa (List.IsInfix.trans ?_ hplace)
    rw [htext]
    exact (List.prefix_append _ _).isInfix
  have hfree : ∀ d ∈ Token.mantissaOf text, isOperator d = false := by
    intro d hd
    rcases Bool.or_eq_true_iff.mp (hmantissa d hd) with hdigit | hpoint
    · exact isOperator_of_isDigit hdigit
    · exact isOperator_of_isAlphanum (Or.inr (eq_of_beq hpoint))
  have hcount : (Token.mantissaOf text).count '.' ≤ 1 := h _ hstretch hfree
  -- There are not two points in it, so there is no digit, and it consists of points.
  have hnodigit := ((Value.ofNumeral?_eq_none_iff hshape).mp hvalue).resolve_left (by omega)
  have hpoints : ∀ d ∈ Token.mantissaOf text, '.' = d := by
    intro d hd
    by_contra hpoint
    have hdigit := Token.isDigit_of_isMantissaChar (hmantissa d hd) (Ne.symm hpoint)
    exact Bool.false_ne_true ((hnodigit d hd).symm.trans hdigit)
  rw [List.count_eq_length.mpr hpoints] at hcount
  obtain ⟨c, rest, hmant⟩ := List.exists_cons_of_ne_nil hne
  rw [hmant] at htext hpoints hcount
  obtain rfl : rest = [] := List.eq_nil_of_length_eq_zero (by simpa using hcount)
  obtain rfl := hpoints c List.mem_cons_self
  exact ⟨power, htext, hpower⟩

end Entry

/-- What has no value, if a calculation fails on it, is a numeral that stands in the line. -/
theorem Evaluator.numeral_of_calculate {ev : Evaluator} {line text : String} {scope : Scope}
    (h : (ev.calculate line scope).1 = .error (.evaluation (.badNumeral text))) :
    Token.IsNumeral text ∧ text.toList <:+: line.toList ∧ Value.ofNumeral? text = none := by
  rcases ev.calculate_cases line scope with
    ⟨c, -, hcalculate⟩ | ⟨tokens, fault, -, -, hcalculate⟩ | ⟨tokens, e, htokens, he, hcalculate⟩
  · rw [hcalculate] at h
    exact absurd (Except.error.inj h) (by rintro ⟨⟩)
  · rw [hcalculate] at h
    exact absurd (Except.error.inj h) (by rintro ⟨⟩)
  · rw [hcalculate] at h
    rcases conclude_eq_error h with ⟨cause, hcause, ⟨⟩⟩ | ⟨-, ⟨⟩⟩
    obtain ⟨hpart, hvalue⟩ := ev.eval_failsWithin e scope _ hcause
    have hspelled := Expr.spelledBy_of_ofTokens he (Token.comesFrom_of_ofChars htokens)
    cases hspelled.of_part hpart with
    | numeral hfrom => exact ⟨hfrom.1, hfrom.2, hvalue⟩

/-! ## The keypad -/

/-- Whether a key types a point alone, if it types one at all. -/
def Key.TypesPointAlone : Key → Prop
  | .operator op => op ≠ '.'
  | .function text | .symbol text => '.' ∉ text.toList
  | .digit _ | .erase | .clear | .equals | .memoryAdd | .memorySubtract | .memoryRecall
  | .angle _ => True

instance (key : Key) : Decidable key.TypesPointAlone :=
  match key with
  | .operator op => inferInstanceAs (Decidable (op ≠ '.'))
  | .function text | .symbol text => inferInstanceAs (Decidable ('.' ∉ text.toList))
  | .digit _ | .erase | .clear | .equals | .memoryAdd | .memorySubtract | .memoryRecall
  | .angle _ => isTrue trivial

namespace Session

/-- A key that types a point alone leaves no stretch with two. -/
theorem onePointEach_press {s : Session} {key : Key} (hkey : key.TypesPointAlone)
    (hs : Entry.OnePointEach s.entry.toList) : Entry.OnePointEach (s.press key).entry.toList := by
  refine s.press_entry key hs (.of_not_mem (by decide))
    (fun x => .of_count (hasValueForm_realText x).count_point_le)
    (fun _ value => .of_count value.hasValueForm_resultText.count_point_le)
    (fun _ => .of_not_mem (by decide)) ?restart ?digit ?operator ?function ?symbol (hs.erase _)
  case restart =>
    rintro c -
    split_ifs with hc
    · exact .of_count (by decide)
    · exact .of_not_mem fun hmem => hc (List.mem_singleton.mp hmem).symm
  case digit =>
    rintro c -
    exact hs.addDigit _ c
  case operator =>
    rintro op cs rfl - (rfl | rfl)
    · exact hs.addOperator _ hkey
    · exact (Entry.OnePointEach.of_not_mem (by decide)).addOperator _ hkey
  case function =>
    rintro call rfl
    exact hs.addFunction _ hkey
  case symbol =>
    rintro text rfl
    exact hs.addSymbol hkey

theorem onePointEach_pressAll {s : Session} {keys : List Key}
    (hkeys : ∀ key ∈ keys, key.TypesPointAlone) (hs : Entry.OnePointEach s.entry.toList) :
    Entry.OnePointEach (s.pressAll keys).entry.toList := by
  induction keys using List.reverseRecOn with
  | nil => exact hs
  | append_singleton keys key ih =>
    obtain ⟨hbefore, hkey⟩ := List.forall_mem_append.mp hkeys
    rw [pressAll_concat]
    exact onePointEach_press (List.forall_mem_singleton.mp hkey) (ih hbefore)

/-- **No numeral with two points is ever typed.** In every run of keys that type a point alone or
none, each stretch of the entry without operators has at most one point. If calculating the entry
fails on a numeral, that one is a single point, perhaps with a power of ten. -/
theorem no_second_point (settings : Settings) {keys : List Key}
    (hkeys : ∀ key ∈ keys, key.TypesPointAlone) :
    let s := (start settings).pressAll keys
    Entry.OnePointEach s.entry.toList ∧
      ∀ text, s.calculate.1 = .error (.evaluation (.badNumeral text)) →
        ∃ power, text.toList = '.' :: power ∧ (power = [] ∨ Token.IsPower power) := by
  intro s
  have hzero : '.' ∉ "0".toList := by decide
  have hstart : Entry.OnePointEach (start settings).entry.toList := .of_not_mem hzero
  have hpoints : Entry.OnePointEach s.entry.toList := onePointEach_pressAll hkeys hstart
  refine ⟨hpoints, fun text hfails => ?_⟩
  rw [calculate_fst] at hfails
  obtain ⟨hshape, hplace, hvalue⟩ := Evaluator.numeral_of_calculate hfails
  rw [preparedLine, String.toList_ofList] at hplace
  exact hpoints.numeral_without_value hshape hplace hvalue

/-- The second point of `1.5.` is not typed. What the percent key leaves has a point of its own, and
behind the plus there is room for another one, which is no numeral with a value. -/
theorem no_second_point_lone_point :
    let keys : List Key := [.digit '1', .digit '.', .digit '5', .digit '.', .operator '%',
      .memoryAdd, .operator '+', .digit '.']
    let s := (start {}).pressAll keys
    (∀ key ∈ keys, key.TypesPointAlone) ∧ s.entry = "0.015+." ∧
      Entry.OnePointEach s.entry.toList ∧
      s.calculate.1 = .error (.evaluation (.badNumeral ".")) ∧
      ∃ power, ".".toList = '.' :: power ∧ (power = [] ∨ Token.IsPower power) := by
  intro keys s
  have hkeys : ∀ key ∈ keys, key.TypesPointAlone := by decide
  have hentry : s.entry = "0.015+." := by decide +kernel
  have htokens : Token.ofText (preparedLine "0.015+.") =
      .ok [.numeral "0.015", .op '+', .numeral "."] := by
    with_unfolding_all rfl
  have hread : Expr.ofTokens s.evaluator.library [.numeral "0.015", .op '+', .numeral "."] =
      .ok (.binary .add (.numeral "0.015") (.numeral ".")) := by rfl
  have hfails : s.calculate.1 = .error (.evaluation (.badNumeral ".")) := by
    rw [calculate_fst, hentry, Evaluator.calculate_of_read htokens hread]
    rfl
  obtain ⟨hpoints, hlone⟩ := no_second_point {} hkeys
  exact ⟨hkeys, hentry, hpoints, hfails, hlone "." hfails⟩

end Session
end Reckoner
