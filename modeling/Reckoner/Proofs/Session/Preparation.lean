/-
The line that is calculated for an entry.

The symbols of an entry are replaced and its parentheses closed without regard to the rest of it.
For parentheses, counting is enough: an expression has as many of one kind as of the other, so if
any number of them at the end makes the line one, it is the number that is missing. The constant,
however, is replaced by a name, and a name goes on as far as it can. So it stays a token of its own
only where no name ends before it, and where no letter, digit or underscore and no further constant
stands behind it.
-/
import Reckoner.Proofs.Grammar.Balance
import Reckoner.Proofs.Lexer.Concatenation
import Reckoner.Proofs.Session.Results

set_option autoImplicit false

namespace Reckoner

/-! ## Replacing and closing -/

namespace Entry

variable {cs : List Char}

theorem not_mem_of_isLexical {c : Char} (h : Token.isLexical c = true) : c ∉ ['×', '÷', 'π'] := by
  have hstray : ∀ d ∈ ['×', '÷', 'π'], (!Token.isLexical d) = true :=
    List.all_eq_true.mp (by decide)
  intro hc
  have hnot := hstray c hc
  rw [h] at hnot
  exact Bool.false_ne_true hnot

theorem not_mem_flatMap_expand {d : Char} (h : d ∈ cs.flatMap expand) : d ∉ ['×', '÷', 'π'] := by
  obtain ⟨c, -, hd⟩ := List.mem_flatMap.mp h
  by_cases hc : c ∈ ['×', '÷', 'π']
  · have hsymbols : ∀ c ∈ ['×', '÷', 'π'], (expand c).all (· ∉ ['×', '÷', 'π']) = true :=
      List.all_eq_true.mp (by decide)
    exact of_decide_eq_true (List.all_eq_true.mp (hsymbols c hc) d hd)
  · rw [expand_of_not_mem hc] at hd
    rwa [List.mem_singleton.mp hd]

/-- No symbol stands for a parenthesis. -/
theorem count_flatMap_expand {c : Char} (hc : c = '(' ∨ c = ')') (cs : List Char) :
    (cs.flatMap expand).count c = cs.count c := by
  induction cs with
  | nil => rfl
  | cons d cs ih =>
    have hd : (expand d).count c = [d].count c := by
      by_cases hsymbol : d ∈ ['×', '÷', 'π']
      · have hall : ∀ d ∈ ['×', '÷', 'π'], ((expand d).count c == [d].count c) = true := by
          rcases hc with rfl | rfl
          all_goals exact List.all_eq_true.mp (by decide)
        exact eq_of_beq (hall d hsymbol)
      · rw [expand_of_not_mem hsymbol]
    rw [List.flatMap_cons, List.count_append, hd, ih, ← List.count_append]
    rfl

theorem missingParentheses_of_le (h : cs.count '(' ≤ cs.count ')') :
    missingParentheses cs = [] := by
  rw [missingParentheses, Nat.sub_eq_zero_of_le h]
  rfl

/-- In a text that is prepared no parenthesis is left open. -/
theorem count_prepare_le (cs : List Char) : (prepare cs).count '(' ≤ (prepare cs).count ')' := by
  rw [prepare, missingParentheses, List.count_append, List.count_append, List.count_replicate_self,
    List.count_replicate, if_neg (by decide), Nat.add_zero]
  omega

theorem prepare_prepare (cs : List Char) : prepare (prepare cs) = prepare cs := by
  have hplain : ∀ d ∈ prepare cs, d ∉ ['×', '÷', 'π'] := by
    refine List.forall_mem_append.mpr ⟨fun d hd => not_mem_flatMap_expand hd, fun d hd => ?_⟩
    rw [List.eq_of_mem_replicate hd]
    decide
  conv_lhs => rw [prepare]
  rw [flatMap_expand hplain, missingParentheses_of_le (count_prepare_le cs), List.append_nil]

end Entry

/-! ## Parentheses -/

/-- Whether a line falls into tokens that are read as an expression. -/
def Expr.IsRead (library : Library) (line : String) : Prop :=
  ∃ ts e, Token.ofText line = .ok ts ∧ ofTokens library ts = .ok e

/-- An expression has as many closing parentheses as opening ones. -/
theorem Expr.IsRead.count_eq {library : Library} {line : String} (h : IsRead library line) :
    line.toList.count '(' = line.toList.count ')' := by
  obtain ⟨ts, e, hlexes, hparses⟩ := h
  have hlaid := Token.laidOut_of_ofChars hlexes
  rw [hlaid.count_parenthesis (Or.inl rfl), hlaid.count_parenthesis (Or.inr rfl)]
  exact balanced_of_ofTokens hparses

/-- An entry with its symbols replaced and `k` parentheses closed at its end. -/
def closedLine (entry : String) (k : Nat) : String :=
  String.ofList (entry.toList.flatMap Entry.expand ++ List.replicate k ')')

theorem toList_closedLine (entry : String) (k : Nat) :
    (closedLine entry k).toList = entry.toList.flatMap Entry.expand ++ List.replicate k ')' :=
  String.toList_ofList

/-- Counting gives the number of parentheses that makes a line an expression. -/
theorem eq_missing_of_isRead {library : Library} {entry : String} {k : Nat}
    (h : Expr.IsRead library (closedLine entry k)) :
    k = (entry.toList.flatMap Entry.expand).count '(' -
      (entry.toList.flatMap Entry.expand).count ')' := by
  have hcount := h.count_eq
  rw [toList_closedLine, List.count_append, List.count_append, List.count_replicate_self,
    List.count_replicate, if_neg (by decide)] at hcount
  omega

/-- **Closing parentheses is right whenever it can be.** If an entry becomes an expression once its
symbols are replaced and some number of parentheses is closed at its end, then no other number makes
it one, and the line that is calculated is this expression. In particular an entry that is an
expression is calculated as it stands. Preparing a line a second time changes nothing. -/
theorem preparedLine_closes (library : Library) (entry : String) :
    (∀ k, Expr.IsRead library (closedLine entry k) → preparedLine entry = closedLine entry k) ∧
      (∀ k k', Expr.IsRead library (closedLine entry k) → Expr.IsRead library (closedLine entry k') →
        k = k') ∧
      (Expr.IsRead library entry → preparedLine entry = entry) ∧
      preparedLine (preparedLine entry) = preparedLine entry := by
  have hcloses : ∀ k, Expr.IsRead library (closedLine entry k) →
      preparedLine entry = closedLine entry k := by
    intro k hk
    rw [closedLine, eq_missing_of_isRead hk]
    rfl
  refine ⟨hcloses, fun k k' hk hk' => ?_, fun hread => ?_, ?_⟩
  · exact (eq_missing_of_isRead hk).trans (eq_missing_of_isRead hk').symm
  · -- An expression has no symbols, so it is the line with no parenthesis closed.
    obtain ⟨ts, e, hlexes, hparses⟩ := id hread
    have hplain : ∀ c ∈ entry.toList, c ∉ ['×', '÷', 'π'] := fun c hc =>
      Entry.not_mem_of_isLexical ((Token.laidOut_of_ofChars hlexes).isLexical c hc)
    have hsame : closedLine entry 0 = entry := by
      rw [closedLine, Entry.flatMap_expand hplain, List.replicate_zero, List.append_nil,
        String.ofList_toList]
    exact (hcloses 0 (hsame.symm ▸ hread)).trans hsame
  · rw [preparedLine, preparedLine, String.toList_ofList, Entry.prepare_prepare]

/-- Of two parentheses one is missing. -/
example : Expr.IsRead .standard (closedLine "(2)×sin(π" 1) :=
  ⟨[.op '(', .numeral "2", .op ')', .op '*', .word "sin", .op '(', .word "PI", .op ')'],
    .binary .mul (.numeral "2") (.call "sin" [.name "PI"]), by with_unfolding_all rfl, rfl⟩

/-! ## The constant -/

/-- Whether the pieces behind a constant go on with its name: they begin with a letter, a digit or an
underscore, or with a further constant. -/
def Entry.joinsConstant : List (List Char) → Bool
  | [] => false
  | [] :: pieces => !pieces.isEmpty
  | (c :: _) :: _ => Token.isWordChar c

/-- Whether the constants between these pieces of text all stay apart from what is around them. -/
def Entry.constantsApart : List (List Char) → Bool
  | piece :: next :: pieces =>
    !Token.endsInName piece && !joinsConstant (next :: pieces) && constantsApart (next :: pieces)
  | _ => true

/-- The pieces of a text all fall into tokens. -/
theorem Token.exists_mapM_ofChars {pieces : List (List Char)}
    (h : ∀ piece ∈ pieces, ∀ c ∈ piece, isLexical c = true) :
    ∃ tss, pieces.mapM ofChars = .ok tss ∧ List.Forall₂ LaidOut tss pieces := by
  induction pieces with
  | nil => exact ⟨[], rfl, .nil⟩
  | cons piece pieces ih =>
    obtain ⟨hpiece, hpieces⟩ := List.forall_mem_cons.mp h
    obtain ⟨ts, hts⟩ := exists_ofChars hpiece
    obtain ⟨tss, htss, hall⟩ := ih hpieces
    refine ⟨ts :: tss, ?_, .cons (laidOut_of_ofChars hts) hall⟩
    rw [List.mapM_cons, hts, htss]
    rfl

/-- The name of the constant is a token of its own if nothing behind it goes on with it. -/
theorem Token.laidOut_constant_iff {ts : List Token} {cs : List Char} :
    LaidOut (.word "PI" :: ts) ('P' :: 'I' :: cs) ↔
      cs.head?.any isWordChar = false ∧ LaidOut ts cs := by
  have hword : IsWord "PI" := by decide
  have hlongest : (word "PI").IsLongest cs ↔ cs.head?.any isWordChar = false := by
    rw [isLongest_word_iff hword]
    cases cs with
    | nil => simp
    | cons c cs => simp
  have htext : (word "PI").text.toList ++ cs = 'P' :: 'I' :: cs := rfl
  rw [← htext, LaidOut.token_iff, hlongest]
  exact and_iff_right hword

namespace Entry

theorem head?_intercalate (pieces : List (List Char)) :
    (['P', 'I'].intercalate pieces).head?.any Token.isWordChar = joinsConstant pieces := by
  match pieces with
  | [] => rfl
  | [[]] => rfl
  | [_ :: _] => rfl
  | [] :: next :: pieces =>
    rw [List.intercalate_cons_cons]
    show Token.isWordChar 'P' = true
    decide
  | (c :: piece) :: next :: pieces =>
    rw [List.intercalate_cons_cons]
    rfl

/-- The tokens of the pieces with the constant between them are those of the whole text exactly if
every constant stays apart. -/
theorem laidOut_intercalate_iff {pieces : List (List Char)} {tss : List (List Token)}
    (h : List.Forall₂ Token.LaidOut tss pieces) :
    Token.LaidOut ([Token.word "PI"].intercalate tss) (['P', 'I'].intercalate pieces) ↔
      constantsApart pieces = true := by
  induction h with
  | nil => exact ⟨fun _ => rfl, fun _ => .nil⟩
  | @cons ts piece tss pieces hpiece hpieces ih =>
    cases hpieces with
    | nil =>
      rw [List.intercalate_singleton, List.intercalate_singleton]
      exact ⟨fun _ => rfl, fun _ => hpiece⟩
    | @cons us next tss pieces hnext hpieces =>
      rw [List.intercalate_cons_cons, List.intercalate_cons_cons, List.append_assoc,
        List.append_assoc]
      simp only [List.cons_append, List.nil_append]
      have hpower := Token.splitPower_of_not_mem (show 'P' ∉ ['e', 'E'] by decide)
      -- What joins a constant from the left, from the right, and further on.
      rw [hpiece.append_iff rfl (hpower _), Token.laidOut_constant_iff, head?_intercalate, ih]
      simp only [constantsApart, Bool.and_eq_true, Bool.not_eq_true', and_assoc]

theorem forall_isLexical_or_constant {cs : List Char}
    (h : cs.all (fun c => Token.isLexical c || c == 'π') = true) :
    ∀ c ∈ cs, Token.isLexical c = true ∨ c = 'π' := fun c hc =>
  (Bool.or_eq_true_iff.mp (List.all_eq_true.mp h c hc)).imp_right eq_of_beq

/-- The pieces between separators have the other characters only. -/
theorem forall_mem_splitOn {x : Char} {p : Char → Prop} {cs : List Char}
    (h : ∀ c ∈ cs, p c ∨ c = x) : ∀ piece ∈ cs.splitOn x, ∀ c ∈ piece, p c := by
  induction cs with
  | nil => simp
  | cons d cs ih =>
    obtain ⟨hd, hcs⟩ := List.forall_mem_cons.mp h
    rw [List.splitOn_cons_eq_if_modifyHead]
    by_cases hsame : d = x
    · rw [if_pos (beq_iff_eq.mpr hsame)]
      exact List.forall_mem_cons.mpr ⟨fun c hc => absurd hc List.not_mem_nil, ih hcs⟩
    · obtain ⟨piece, pieces, hsplit⟩ := List.exists_cons_of_ne_nil (List.splitOn_ne_nil x cs)
      obtain ⟨hpiece, hpieces⟩ := List.forall_mem_cons.mp (hsplit ▸ ih hcs)
      rw [if_neg (mt beq_iff_eq.mp hsame), hsplit, List.modifyHead_cons]
      refine List.forall_mem_cons.mpr ⟨?_, hpieces⟩
      exact List.forall_mem_cons.mpr ⟨hd.resolve_right hsame, hpiece⟩

theorem flatMap_expand_intercalate {pieces : List (List Char)}
    (h : ∀ piece ∈ pieces, ∀ c ∈ piece, Token.isLexical c = true) :
    (['π'].intercalate pieces).flatMap expand = ['P', 'I'].intercalate pieces := by
  induction pieces with
  | nil => rfl
  | cons piece pieces ih =>
    obtain ⟨hpiece, hpieces⟩ := List.forall_mem_cons.mp h
    have hsame := flatMap_expand fun c hc => not_mem_of_isLexical (hpiece c hc)
    cases pieces with
    | nil => rw [List.intercalate_singleton, List.intercalate_singleton, hsame]
    | cons next pieces =>
      rw [List.intercalate_cons_cons, List.intercalate_cons_cons, List.flatMap_append,
        List.flatMap_append, hsame, ih hpieces]
      rfl

end Entry

/-- **Where the constant is a token of its own.** Let an entry be made of characters that the lexer
knows and of constants, with no parenthesis left open. Its pieces between the constants fall into
tokens. The line that is calculated has these tokens, with the name of the constant between those of
neighbouring pieces, exactly if no name ends directly before a constant, and no letter, digit,
underscore or further constant stands directly behind one. -/
theorem ofText_preparedLine_constant {entry : String}
    (hchars : ∀ c ∈ entry.toList, Token.isLexical c = true ∨ c = 'π')
    (hclosed : entry.toList.count '(' ≤ entry.toList.count ')') :
    ∃ tss, (entry.toList.splitOn 'π').mapM Token.ofChars = .ok tss ∧
      (Token.ofText (preparedLine entry) = .ok ([Token.word "PI"].intercalate tss) ↔
        Entry.constantsApart (entry.toList.splitOn 'π') = true) := by
  have hpieces := Entry.forall_mem_splitOn hchars
  obtain ⟨tss, htss, hlaid⟩ := Token.exists_mapM_ofChars hpieces
  have hexpand : entry.toList.flatMap Entry.expand =
      ['P', 'I'].intercalate (entry.toList.splitOn 'π') := by
    rw [← Entry.flatMap_expand_intercalate hpieces, List.intercalate_splitOn]
  have hline : (preparedLine entry).toList = ['P', 'I'].intercalate (entry.toList.splitOn 'π') := by
    rw [preparedLine, String.toList_ofList, Entry.prepare, Entry.missingParentheses_of_le, hexpand]
    · exact List.append_nil _
    · rwa [Entry.count_flatMap_expand (Or.inl rfl), Entry.count_flatMap_expand (Or.inr rfl)]
  refine ⟨tss, htss, ?_⟩
  rw [Token.ofText, hline, Token.ofChars_eq_ok_iff]
  exact Entry.laidOut_intercalate_iff hlaid

/-- Behind numerals and parentheses the constant stays apart, also before an operator or the end. -/
theorem ofText_preparedLine_constant_apart :
    (∀ c ∈ "2π^(x+1e5π)".toList, Token.isLexical c = true ∨ c = 'π') ∧
      "2π^(x+1e5π)".toList.count '(' ≤ "2π^(x+1e5π)".toList.count ')' ∧
      Token.ofText (preparedLine "2π^(x+1e5π)") =
        .ok [.numeral "2", .word "PI", .op '^', .op '(', .word "x", .op '+', .numeral "1e5",
          .word "PI", .op ')'] := by
  have hchars := @Entry.forall_isLexical_or_constant "2π^(x+1e5π)".toList (by decide)
  have hclosed : "2π^(x+1e5π)".toList.count '(' ≤ "2π^(x+1e5π)".toList.count ')' := by decide
  obtain ⟨tss, htss, hiff⟩ := ofText_preparedLine_constant hchars hclosed
  have htokens : ("2π^(x+1e5π)".toList.splitOn 'π').mapM Token.ofChars =
      .ok [[.numeral "2"], [.op '^', .op '(', .word "x", .op '+', .numeral "1e5"], [.op ')']] := by
    with_unfolding_all rfl
  obtain rfl := Except.ok.inj (htss.symm.trans htokens)
  exact ⟨hchars, hclosed, hiff.mpr (by with_unfolding_all rfl)⟩

/-- A digit behind the constant goes on with its name. -/
theorem constant_joined_by_digit :
    (∀ c ∈ "π3".toList, Token.isLexical c = true ∨ c = 'π') ∧
      "π3".toList.count '(' ≤ "π3".toList.count ')' ∧
      ("π3".toList.splitOn 'π').mapM Token.ofChars = .ok [[], [.numeral "3"]] ∧
      Token.ofText (preparedLine "π3") = .ok [.word "PI3"] ∧
      [Token.word "PI3"] ≠ [Token.word "PI"].intercalate [[], [.numeral "3"]] := by
  refine ⟨Entry.forall_isLexical_or_constant (by decide), by decide, ?_, ?_, by decide⟩
  · with_unfolding_all rfl
  · with_unfolding_all rfl

end Reckoner
