/-
The working of a result, read back.

A working shows the tokens of its line with a blank between neighbours. A blank ends every run of the
lexer: that of digits and points, that of a name, and also the look ahead for the sign and the digits
of a power of ten. So each token is read before the blank behind it, and the shown text falls into
the tokens it was made of, also where two of them would be one token if they stood side by side.

A calculation sees a line through its tokens only. So the shown tokens, taken as a line, have the same
result and the same working, and leave the same scope.
-/
import Reckoner.Calculation
import Reckoner.Proofs.Lexer.Exactness

set_option autoImplicit false

namespace Reckoner

namespace Token

variable {t : Token} {ts : List Token} {rest : List Char}

/-- A token is read before whatever ends every run. -/
theorem ofChars_text (ht : t.IsShaped) (hrest : Breaks rest) (h : ofChars rest = .ok ts) :
    ofChars (t.text.toList ++ rest) = .ok (t :: ts) := by
  cases t with
  | numeral text => exact ofChars_numeral ht hrest h
  | word text => exact ofChars_word ht hrest h
  | op c =>
    rw [toList_text_op, List.singleton_append]
    exact ofChars_op ht h

theorem toList_showAll_cons_cons (t u : Token) (ts : List Token) :
    (showAll (t :: u :: ts)).toList = t.text.toList ++ ' ' :: (showAll (u :: ts)).toList := by
  simp [showAll]

/-- Shown tokens are read as the tokens they are. -/
theorem ofText_showAll (h : ∀ t ∈ ts, t.IsShaped) : ofText (showAll ts) = .ok ts := by
  unfold ofText
  induction ts with
  | nil => simp [showAll, ofChars_nil]
  | cons t ts ih =>
    have ht : t.IsShaped := h t (by simp)
    have hts : ∀ u ∈ ts, u.IsShaped := fun u hu => h u (by simp [hu])
    cases ts with
    | nil =>
      have hread := ofChars_text ht .nil ofChars_nil
      simpa [showAll] using hread
    | cons u ts =>
      -- The blank is a break whatever comes behind it.
      have hbreaks : Breaks (' ' :: (showAll (u :: ts)).toList) := .cons (by decide) _
      rw [toList_showAll_cons_cons]
      exact ofChars_text ht hbreaks (ofChars_blank (ih hts))

end Token

namespace Evaluator

variable {ev : Evaluator} {line line' : String} {scope after : Scope} {value : Value}
  {working : Working}

/-- Lines with the same tokens have the same result and the same working. -/
theorem detail_congr (h : Token.ofText line = Token.ofText line') :
    ev.detail line = ev.detail line' := by
  funext scope
  simp only [detail, h]

/-- The working of a result shows the tokens of the line. -/
theorem tokens_of_detail (h : ev.detail line scope = (.ok (value, working), after)) :
    ∃ ts, Token.ofText line = .ok ts ∧ working.tokens = Token.showAll ts := by
  unfold detail at h
  split at h
  · simp at h
  · next ts hts =>
    refine ⟨ts, hts, ?_⟩
    split at h
    · simp at h
    · split at h
      · simp at h
      · split at h
        · simp at h
        · simp only [Prod.mk.injEq, Except.ok.injEq] at h
          rw [← h.1.2]

/-- **The tokens of a working are read back.** Tokens that have the shapes of their kinds are the
tokens of the text that shows them. So a line that has a result has the same one, with the same
working and the same scope after it, if the tokens that the working shows are taken for the line. -/
theorem detail_shown_tokens (ev : Evaluator) (line : String) (scope : Scope) :
    (∀ ts : List Token, (∀ t ∈ ts, t.IsShaped) → Token.ofText (Token.showAll ts) = .ok ts) ∧
      ∀ value working after, ev.detail line scope = (.ok (value, working), after) →
        ev.detail working.tokens scope = (.ok (value, working), after) := by
  refine ⟨fun ts hts => Token.ofText_showAll hts, ?_⟩
  intro value working after h
  obtain ⟨ts, hts, hshown⟩ := tokens_of_detail h
  have hshaped : ∀ t ∈ ts, t.IsShaped := (Token.laidOut_of_ofChars hts).isShaped
  have hsame : Token.ofText working.tokens = Token.ofText line := by
    rw [hshown, Token.ofText_showAll hshaped, hts]
  rw [detail_congr hsame, h]

/-- Without its blank, `2e -3` would be a single numeral. The working keeps the numeral, the name and
the sign apart. -/
theorem detail_shown_tokens_broken_power :
    let ev : Evaluator := ⟨.standard, .degrees⟩
    let scope := Scope.ofList [("e", .whole 5)]
    let ts : List Token := [.numeral "2", .word "e", .op '-', .numeral "3"]
    let working : Working :=
      ⟨"2 e - 3", "((2 * e) - 3)", "Pipeline: jetons → AST → évaluation (Entier/Reel)."⟩
    (∀ t ∈ ts, t.IsShaped) ∧ Token.ofText (Token.showAll ts) = .ok ts ∧
      ev.detail "2e -3" scope = (.ok (.whole 7, working), scope) ∧
      ev.detail "2 e - 3" scope = (.ok (.whole 7, working), scope) := by
  intro ev scope ts working
  have hts : Token.ofText "2e -3" = .ok ts := by with_unfolding_all rfl
  have hshaped : ∀ t ∈ ts, t.IsShaped := (Token.laidOut_of_ofChars hts).isShaped
  have hread : Expr.ofTokens ev.library ts =
      .ok (.binary .sub (.binary .mul (.numeral "2") (.name "e")) (.numeral "3")) := by rfl
  have hdetail : ev.detail "2e -3" scope = (.ok (.whole 7, working), scope) := by
    unfold detail
    rw [hts]
    dsimp only
    rw [hread]
    rfl
  obtain ⟨hshown, hagain⟩ := ev.detail_shown_tokens "2e -3" scope
  exact ⟨hshaped, hshown ts hshaped, hdetail, hagain _ _ _ hdetail⟩

end Evaluator
end Reckoner
