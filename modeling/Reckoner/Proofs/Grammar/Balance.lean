/-
Parentheses in what the grammar derives.

Each rule opens a parenthesis only together with the one that closes it, and no other rule has
parentheses of its own. So the tokens of an expression have as many of one kind as of the other. This
can be counted on the line itself: a parenthesis belongs to no other token.
-/
import Reckoner.Proofs.Grammar.Acceptance
import Reckoner.Proofs.Lexer.Exactness

set_option autoImplicit false

namespace Reckoner

/-! ## Balanced tokens -/

/-- Whether tokens have as many closing parentheses as opening ones. -/
def Token.Balanced (ts : List Token) : Prop :=
  ts.count (.op '(') = ts.count (.op ')')

namespace Token.Balanced

variable {ts us : List Token}

theorem nil : Balanced [] := rfl

/-- Balanced tokens side by side are balanced, since both counts add up. -/
theorem append (hts : Balanced ts) (hus : Balanced us) : Balanced (ts ++ us) := by
  rw [Balanced, List.count_append, List.count_append, hts, hus]

/-- A token that is no parenthesis changes neither count. -/
theorem cons {t : Token} (ht : t ≠ .op '(' ∧ t ≠ .op ')') (hts : Balanced ts) :
    Balanced (t :: ts) := by
  rw [Balanced, List.count_cons_of_ne ht.1, List.count_cons_of_ne ht.2, hts]

/-- A pair of parentheses adds one to each count. -/
theorem parenthesized (hts : Balanced ts) : Balanced (.op '(' :: (ts ++ [.op ')'])) := by
  have hopen : List.count (.op '(') [Token.op ')'] = 0 := rfl
  have hclose : List.count (.op ')') [Token.op ')'] = 1 := rfl
  rw [Balanced, List.count_cons_self, List.count_cons_of_ne (by decide), List.count_append,
    List.count_append, hopen, hclose, hts]

end Token.Balanced

/-- Neither a sign nor an operator is a parenthesis, so none changes a count. -/
theorem UnaryOp.token_ne_parenthesis (op : UnaryOp) :
    op.token ≠ .op '(' ∧ op.token ≠ .op ')' := by
  cases op with
  | _ => decide

theorem BinaryOp.token_ne_parenthesis (op : BinaryOp) :
    op.token ≠ .op '(' ∧ op.token ≠ .op ')' := by
  cases op with
  | _ => decide

open Token (Balanced)

namespace Grammar

/-- Every phrase is balanced. -/
theorem Derivation.balanced {s : Symbol} (d : Derivation s) : Balanced d.tokens := by
  -- One case for each rule. Only a group and a call have parentheses, and these have both.
  induction d with
  | value _ ih | single _ ih => exact ih
  | sum _ _ ih ih' | product _ _ ih ih' | juxtaposed _ _ ih ih' | someArguments _ _ ih ih' =>
    exact ih.append ih'
  | sumEnd | productEnd | noArguments | argumentsEnd => exact .nil
  | sumStep op _ _ _ ih ih' | productStep op _ _ _ ih ih' =>
    exact (ih.append ih').cons op.token_ne_parenthesis
  | assignment _ _ ih ih' | power _ _ ih ih' => exact ih.append (ih'.cons (by decide))
  | argument _ _ ih ih' => exact (ih.append ih').cons (by decide)
  | signed op _ ih => exact ih.cons op.token_ne_parenthesis
  | numeral text | name text => exact Balanced.nil.cons ⟨by rintro ⟨⟩, by rintro ⟨⟩⟩
  | group _ ih => exact ih.parenthesized
  | call function _ ih => exact ih.parenthesized.cons ⟨by rintro ⟨⟩, by rintro ⟨⟩⟩
  | command function _ ih => exact ih.cons ⟨by rintro ⟨⟩, by rintro ⟨⟩⟩

end Grammar

/-- Tokens that are read as an expression are balanced, since they are those of a derivation. -/
theorem Expr.balanced_of_ofTokens {library : Library} {ts : List Token} {e : Expr}
    (h : ofTokens library ts = .ok e) : Balanced ts := by
  obtain ⟨d, hd, -⟩ := derivation_of_ofTokens h
  rw [← hd.tokens]
  exact d.balanced

/-! ## Parentheses in a line -/

namespace Token

variable {c : Char} (hc : c = '(' ∨ c = ')')

include hc

/-- A parenthesis is no part of a numeral or a name. -/
theorem count_text {t : Token} (ht : t.IsShaped) : t.text.toList.count c = [t].count (.op c) := by
  have hclasses : isMantissaChar c = false ∧ c ∉ ['e', 'E', '+', '-'] ∧ isWordChar c = false := by
    rcases hc with rfl | rfl
    all_goals decide
  obtain ⟨hmantissa, hpower, hword⟩ := hclasses
  cases t with
  | numeral text =>
    refine List.count_eq_zero.mpr fun hmem => ?_
    refine (mem_numeral ht hmem).elim (fun h => ?_) hpower
    exact Bool.false_ne_true (hmantissa.symm.trans h)
  | word text =>
    refine List.count_eq_zero.mpr fun hmem => ?_
    exact Bool.false_ne_true (hword.symm.trans (mem_word ht hmem))
  | op d =>
    rw [toList_text_op]
    simp only [List.count_singleton, beq_eq_decide, op.injEq]

/-- A line has as many parentheses of either kind as there are among its tokens. -/
theorem LaidOut.count_parenthesis {ts : List Token} {cs : List Char} (h : LaidOut ts cs) :
    cs.count c = ts.count (.op c) := by
  have hvisible : (!isBlank c) = true := by
    rcases hc with rfl | rfl
    all_goals decide
  -- Without its blanks, the line is the texts of the tokens one after the other.
  rw [← List.count_filter (p := fun d => !isBlank d) hvisible, ← h.flatMap_text]
  have hshaped := h.isShaped
  clear h
  induction ts with
  | nil => rfl
  | cons t ts ih =>
    obtain ⟨ht, hts⟩ := List.forall_mem_cons.mp hshaped
    rw [List.flatMap_cons, List.count_append, count_text hc ht, ih hts, ← List.count_append]
    rfl

end Token

end Reckoner
