/-
The function key.

The key types the name of a function and its parenthesis. Where the entry ends in a digit, a point, a
closing parenthesis or the letter of the bound name, it multiplies first, but only in an entry that is
being typed. In front of most texts the name stays a token of its own without that: a numeral takes in
no letter unless a power of ten begins there, and no function's name begins like one, not even that of
`exp`. Only a name takes the function's name in. So the key enters a call, with or without the
multiplication, unless it does not multiply and a name stands right before it: `y` and `sin(` make
`ysin(`, and so do `x` and `sin(` in an entry that counts as a result.
-/
import Reckoner.Proofs.Lexer.Concatenation
import Reckoner.Session.Basic

set_option autoImplicit false

namespace Reckoner

/-! ## The text that is added -/

namespace Entry

/-- Whether the function key multiplies what stands in front with the call. -/
def multiplies (fresh : Bool) (cs : List Char) : Bool :=
  !fresh && cs.getLast?.any fun c => c.isDigit || c == '.' || c == ')' || c == 'x'

theorem addFunction_eq {cs : List Char} (h : isBlank cs = false) (fresh : Bool) (call : List Char) :
    addFunction fresh call cs = cs ++ (if multiplies fresh cs then '*' :: call else call) := by
  rw [addFunction, h, if_neg Bool.false_ne_true, multiplies]
  cases cs.getLast? with
  | none => simp
  | some c =>
    simp only [Option.any_some]
    split_ifs
    · rfl
    · rfl

/-- The two texts that the key replaces are the only ones. -/
theorem isBlank_toList {entry : String} (hzero : entry ≠ "0") (hfailure : entry ≠ failureText) :
    isBlank entry.toList = false := by
  have hinjective : ∀ other : String, entry ≠ other → entry.toList ≠ other.toList := fun _ hne h =>
    hne (String.toList_inj.mp h)
  rw [isBlank, beq_eq_false_iff_ne.mpr (hinjective failureText hfailure), Bool.or_false]
  exact beq_eq_false_iff_ne.mpr (hinjective "0" hzero)

end Entry

/-! ## The tokens of a call -/

namespace Token

/-- The tokens that a function key is meant to add. -/
def callOf (name : String) : List Token :=
  [.word name, .op '(']

theorem laidOut_parenthesis : LaidOut [.op '('] ['('] :=
  .token rfl (isLongest_op [] rfl) (List.append_nil _) .nil

/-- No name goes on with the parenthesis. -/
theorem isWordChar_parenthesis : ∀ c, ['('].head? = some c → isWordChar c = false := by
  rintro c ⟨⟩
  rfl

theorem laidOut_callOf {name : String} (h : IsWord name) :
    LaidOut (callOf name) (name.toList ++ ['(']) :=
  .token h ((isLongest_word_iff h).mpr isWordChar_parenthesis) rfl laidOut_parenthesis

/-- Where two names have become one, there are fewer tokens than where they stand apart. -/
theorem joined_ne_apart (front : List Token) (text name : String) (between : List Token) :
    front ++ callOf (text ++ name) ≠ front ++ [.word text] ++ (between ++ callOf name) := by
  intro hsame
  have hlength := congrArg List.length hsame
  simp only [callOf, List.length_append, List.length_cons, List.length_nil] at hlength
  omega

/-- No function's name begins like a power of ten. -/
theorem splitPower_name : ∀ name ∈ Library.standard.names,
    (splitPower (name.toList ++ ['('])).1 = [] := by
  decide

theorem isWord_name : ∀ name ∈ Library.standard.names, IsWord name := by
  decide

variable {name : String} (hname : name ∈ Library.standard.names)
variable {ts : List Token} {cs : List Char} (h : LaidOut ts cs)

include hname h

/-- A call that is multiplied with a text stands apart from it. -/
theorem LaidOut.append_product :
    LaidOut (ts ++ .op '*' :: callOf name) (cs ++ '*' :: (name.toList ++ ['('])) := by
  have hcall := laidOut_callOf (isWord_name name hname)
  exact h.append (.cons (by decide) _) (.token rfl (isLongest_op _ rfl) rfl hcall)

/-- Without the multiplication it stands apart from a text that ends in no name. -/
theorem LaidOut.append_call (hends : endsInName cs = false) :
    LaidOut (ts ++ callOf name) (cs ++ (name.toList ++ ['('])) := by
  have hcall := laidOut_callOf (isWord_name name hname)
  have hpower := splitPower_name name hname
  -- What counts is the first letter of the name.
  obtain ⟨c, more, hchars, hc, -⟩ := isWord_name name hname
  rw [hchars, List.cons_append] at hcall hpower ⊢
  exact (h.append_iff hc hpower).mpr ⟨hends, hcall⟩

/-- A name at the end of the text takes the function's name in. -/
theorem LaidOut.append_call_joined (hends : endsInName cs = true) :
    ∃ front text, ts = front ++ [.word text] ∧
      LaidOut (front ++ callOf (text ++ name)) (cs ++ (name.toList ++ ['('])) :=
  h.append_joined (isWord_name name hname) (splitPower_name name hname) isWordChar_parenthesis hends
    laidOut_parenthesis

end Token

/-! ## The key -/

namespace Session

variable {s : Session} {name : String} {ts : List Token}

/-- On an entry that is not replaced the key adds the call behind it. -/
theorem toList_press_function (hzero : s.entry ≠ "0") (hfailure : s.entry ≠ failureText)
    (name : String) :
    (s.press (.function (name ++ "("))).entry.toList =
      s.entry.toList ++ (if Entry.multiplies s.fresh s.entry.toList then
        '*' :: (name.toList ++ ['(']) else name.toList ++ ['(']) := by
  have hcall : (name ++ "(").toList = name.toList ++ ['('] := String.toList_append
  rw [press, edit, String.toList_ofList,
    Entry.addFunction_eq (Entry.isBlank_toList hzero hfailure), hcall]

/-- **The function key.** Let an entry fall into tokens and be neither zero nor the word for a failure.
Behind it the key enters a call of the function, multiplied or not, exactly if it multiplies or no
name ends the entry. Otherwise the name that ends the entry and the function's name become one. -/
theorem press_function (hname : name ∈ Library.standard.names) (hzero : s.entry ≠ "0")
    (hfailure : s.entry ≠ failureText) (hentry : Token.ofText s.entry = .ok ts) :
    let pressed := Token.ofText (s.press (.function (name ++ "("))).entry
    let multiplies := Entry.multiplies s.fresh s.entry.toList
    let endsInName := Token.endsInName s.entry.toList
    (pressed = .ok (ts ++ Token.callOf name) ∨ pressed = .ok (ts ++ .op '*' :: Token.callOf name) ↔
        multiplies = true ∨ endsInName = false) ∧
      (multiplies = true → pressed = .ok (ts ++ .op '*' :: Token.callOf name)) ∧
      (multiplies = false → endsInName = false → pressed = .ok (ts ++ Token.callOf name)) ∧
      (multiplies = false → endsInName = true → ∃ front text, ts = front ++ [.word text] ∧
        pressed = .ok (front ++ Token.callOf (text ++ name))) := by
  intro pressed multiplies endsInName
  -- The layout of the entry goes on behind it, in one of three ways.
  have hlaid := Token.laidOut_of_ofChars hentry
  have hadded := toList_press_function hzero hfailure name
  have hproduct : multiplies = true → pressed = .ok (ts ++ .op '*' :: Token.callOf name) := by
    intro hmultiplies
    rw [if_pos hmultiplies] at hadded
    exact Token.ofChars_eq_ok_iff.mpr (hadded ▸ hlaid.append_product hname)
  have hcall : multiplies = false → endsInName = false →
      pressed = .ok (ts ++ Token.callOf name) := by
    intro hmultiplies hends
    rw [if_neg (Bool.eq_false_iff.mp hmultiplies)] at hadded
    exact Token.ofChars_eq_ok_iff.mpr (hadded ▸ hlaid.append_call hname hends)
  have hjoined : multiplies = false → endsInName = true → ∃ front text,
      ts = front ++ [.word text] ∧ pressed = .ok (front ++ Token.callOf (text ++ name)) := by
    intro hmultiplies hends
    rw [if_neg (Bool.eq_false_iff.mp hmultiplies)] at hadded
    obtain ⟨front, text, hfront, hlines⟩ := hlaid.append_call_joined hname hends
    exact ⟨front, text, hfront, Token.ofChars_eq_ok_iff.mpr (hadded ▸ hlines)⟩
  refine ⟨⟨fun hcalls => ?_, fun h => ?_⟩, hproduct, hcall, hjoined⟩
  · -- In the third case the tokens are neither of the two lists.
    by_contra hnot
    obtain ⟨hmultiplies, hends⟩ := not_or.mp hnot
    obtain ⟨front, text, hfront, hpressed⟩ :=
      hjoined (Bool.eq_false_iff.mpr hmultiplies) ((Bool.not_eq_false _).mp hends)
    rw [hpressed, hfront] at hcalls
    rcases hcalls with hplain | hmultiplied
    · exact Token.joined_ne_apart front text name [] (Except.ok.inj hplain)
    · exact Token.joined_ne_apart front text name [.op '*'] (Except.ok.inj hmultiplied)
  · by_cases hmultiplies : multiplies = true
    · exact Or.inr (hproduct hmultiplies)
    · exact Or.inl (hcall (Bool.eq_false_iff.mpr hmultiplies) (h.resolve_left hmultiplies))

/-- Behind a numeral the key multiplies, and where it does not, the letter of `exp` still begins a
name. -/
theorem press_function_exp :
    let typed := (start {}).pressAll [.symbol "y", .symbol "=", .digit '2']
    let result := { start {} with entry := "2" }
    Token.ofText (typed.press (.function ("exp" ++ "("))).entry =
        .ok [.word "y", .op '=', .numeral "2", .op '*', .word "exp", .op '('] ∧
      Token.ofText (result.press (.function ("exp" ++ "("))).entry =
        .ok [.numeral "2", .word "exp", .op '('] := by
  intro typed result
  have hentry : typed.entry = "y=2" := by decide +kernel
  have htyped : Token.ofText typed.entry = .ok [.word "y", .op '=', .numeral "2"] := by
    rw [hentry]
    with_unfolding_all rfl
  have hresult : Token.ofText "2" = .ok [.numeral "2"] := by with_unfolding_all rfl
  have hname : "exp" ∈ Library.standard.names := by decide
  have hmultiplies : Entry.multiplies typed.fresh typed.entry.toList = true := by decide +kernel
  have hends : Token.endsInName result.entry.toList = false := by
    rw [(Token.laidOut_of_ofChars hresult).endsInName_eq]
    decide
  obtain ⟨-, hproduct, -⟩ :=
    press_function hname (by rw [hentry]; decide) (by rw [hentry]; decide) htyped
  obtain ⟨-, -, hcall, -⟩ := press_function (s := result) hname (by decide) (by decide) hresult
  exact ⟨hproduct hmultiplies, hcall (by decide) hends⟩

/-- The name of a variable takes the function's name in: that of the bound name if the entry counts as
a result, and every other one in any case. -/
theorem function_joined_to_variable :
    let x := (start {}).pressAll [.symbol "x", .operator '%']
    let y := (start {}).pressAll [.symbol "y"]
    x.entry = "x" ∧ y.entry = "y" ∧ "sin" ∈ Library.standard.names ∧
      Token.ofText "x" = .ok [.word "x"] ∧ Token.ofText "y" = .ok [.word "y"] ∧
      (x.press (.function "sin(")).entry = "xsin(" ∧ (y.press (.function "sin(")).entry = "ysin(" ∧
      Token.ofText "xsin(" = .ok [.word "xsin", .op '('] ∧
      Token.ofText "ysin(" = .ok [.word "ysin", .op '('] ∧
      ∀ v ∈ ["x", "y"], [.word (v ++ "sin"), .op '('] ≠ [.word v] ++ Token.callOf "sin" ∧
        [.word (v ++ "sin"), .op '('] ≠ [.word v] ++ .op '*' :: Token.callOf "sin" := by
  intro x y
  refine ⟨by decide +kernel, by decide +kernel, by decide, ?_, ?_, by decide +kernel,
    by decide +kernel, ?_, ?_, by decide⟩
  all_goals with_unfolding_all rfl

end Session
end Reckoner
