/-
The size of an expression, by the number of its tokens.

The limit on nesting does not keep an expression flat. A chain of operators opens no rule inside
another one, but its expression is one step higher with each operand, and where factors stand side by
side there is a node without a token of its own. What bounds the height is the number of tokens: the
steps of a chain add no more to the operand on their left than the tokens they are made of, one for
each step of height and two for each node. So an expression of `t` tokens has at most `2 * t - 1` nodes
and a height of at most `t - 1`. Products without an operator reach both.

The limit on the number of tokens is then one on the depth of every recursion over an expression.
-/
import Reckoner.Proofs.Expr.Height
import Reckoner.Proofs.Grammar.Acceptance

set_option autoImplicit false

namespace Reckoner

open Grammar

/-! ## What tokens allow -/

/-- An expression that is no larger than `t` tokens allow. -/
structure Expr.Within (t : Nat) (e : Expr) : Prop where
  size : e.size + 1 ≤ 2 * t
  height : e.height + 1 ≤ t

/-- Steps of a chain that make the operand on their left no larger than `t` tokens allow: by two nodes
and by one step for each of them. -/
structure Grammar.StepsWithin (t : Nat) (steps : Expr → Expr) : Prop where
  size : ∀ left, (steps left).size ≤ left.size + 2 * t
  height : ∀ left, (steps left).height ≤ left.height + t

/-- Arguments of a call that are no larger than `t` tokens allow. There may be none. -/
structure Grammar.ArgumentsWithin (t : Nat) (es : List Expr) : Prop where
  size : Expr.argumentsSize es ≤ 2 * t
  height : Expr.argumentsHeight es ≤ t

section Within

variable {t u v : Nat} {left right : Expr} {steps : Expr → Expr} {es : List Expr}

namespace Expr.Within

theorem numeral (text : String) : (Expr.numeral text).Within 1 :=
  ⟨Nat.le_refl 2, Nat.le_refl 1⟩

theorem name (text : String) : (Expr.name text).Within 1 :=
  ⟨Nat.le_refl 2, Nat.le_refl 1⟩

theorem mono (h : left.Within t) (htu : t ≤ u) : left.Within u := by
  obtain ⟨hsize, hheight⟩ := h
  exact ⟨by omega, by omega⟩

/-- A sign has one token, and adds one node and one step. -/
theorem unary (op : UnaryOp) (h : left.Within t) : (Expr.unary op left).Within (t + 1) := by
  obtain ⟨hsize, hheight⟩ := h
  constructor
  · rw [Expr.size]
    omega
  · rw [Expr.height]
    omega

/-- An operation needs no token of its own: of two operands each has one at least. -/
theorem binary (op : BinaryOp) (hl : left.Within t) (hr : right.Within u) (hv : t + u ≤ v) :
    (Expr.binary op left right).Within v := by
  obtain ⟨hsizel, hheightl⟩ := hl
  obtain ⟨hsizer, hheightr⟩ := hr
  constructor
  · rw [Expr.size]
    omega
  · rw [Expr.height]
    omega

/-- The two sides of an assignment have a token each, so its sign is more than it needs. -/
theorem assign (hl : left.Within t) (hr : right.Within u) (hv : t + u ≤ v) :
    (Expr.assign left right).Within v := by
  obtain ⟨hsizel, hheightl⟩ := hl
  obtain ⟨hsizer, hheightr⟩ := hr
  constructor
  · rw [Expr.size]
    omega
  · rw [Expr.height]
    omega

/-- The name of a function is a token for the node of the call. -/
theorem call (function : String) (h : ArgumentsWithin t es) (htu : t < u) :
    (Expr.call function es).Within u := by
  obtain ⟨hsize, hheight⟩ := h
  constructor
  · rw [Expr.size]
    omega
  · rw [Expr.height]
    omega

end Expr.Within

namespace Grammar

theorem StepsWithin.none : StepsWithin 0 fun left => left :=
  ⟨fun _ => Nat.le_refl _, fun _ => Nat.le_refl _⟩

/-- One more operand in front of the steps. Where it stands side by side with the one on its left, the
node above both has no token, so the two nodes of the operand's last token must do for it. -/
theorem StepsWithin.step (op : BinaryOp) (hr : right.Within t) (h : StepsWithin u steps)
    (hv : t + u ≤ v) : StepsWithin v fun left => steps (.binary op left right) := by
  obtain ⟨hsizer, hheightr⟩ := hr
  constructor
  · intro left
    have hsize := h.size (.binary op left right)
    rw [Expr.size] at hsize
    omega
  · intro left
    have hheight := h.height (.binary op left right)
    rw [Expr.height] at hheight
    omega

/-- The steps of a chain with the operand that they begin with. -/
theorem StepsWithin.chain (h : StepsWithin u steps) (hl : left.Within t) :
    (steps left).Within (t + u) := by
  obtain ⟨hsizel, hheightl⟩ := hl
  have hsize := h.size left
  have hheight := h.height left
  exact ⟨by omega, by omega⟩

theorem ArgumentsWithin.nil : ArgumentsWithin 0 [] :=
  ⟨Nat.le_refl 0, Nat.le_refl 0⟩

theorem ArgumentsWithin.cons (he : left.Within t) (hes : ArgumentsWithin u es) (hv : t + u ≤ v) :
    ArgumentsWithin v (left :: es) := by
  obtain ⟨hsize, hheight⟩ := he
  obtain ⟨hsizes, hheights⟩ := hes
  constructor
  · rw [Expr.argumentsSize]
    omega
  · rw [Expr.argumentsHeight]
    omega

end Grammar
end Within

/-! ## Derivations -/

namespace Grammar

/-- What `t` tokens may mean. -/
def Symbol.MeaningWithin (t : Nat) : (s : Symbol) → s.Meaning → Prop
  | .expression, e | .sum, e | .product, e | .factor, e | .atom, e => e.Within t
  | .sumSteps, f | .productSteps, f => StepsWithin t f
  | .arguments, es | .moreArguments, es => ArgumentsWithin t es

/-- A derivation means no more than its tokens allow. -/
theorem Derivation.meaning_within {s : Symbol} (d : Derivation s) :
    s.MeaningWithin d.tokens.length d.meaning := by
  -- Each rule is one of the lemmas above, and what is left to do is to count its tokens.
  induction d with
  | value operand ih => exact ih
  | assignment target right iht ihr =>
    exact iht.assign ihr (by simp only [tokens, List.length_append, List.length_cons]; omega)
  | sum first steps ihf ihs | product first steps ihf ihs =>
    exact (List.length_append ▸ ihs.chain ihf :)
  | sumEnd | productEnd => exact .none
  | sumStep op _ operand steps iho ihs | productStep op _ operand steps iho ihs =>
    exact .step op iho ihs (by simp only [tokens, List.length_append, List.length_cons]; omega)
  | juxtaposed operand steps iho ihs =>
    exact .step .mul iho ihs (by simp only [tokens, List.length_append]; omega)
  | signed op operand ih => exact ih.unary op
  | single base ih => exact ih
  | power base exponent ihb ihe =>
    exact .binary .pow ihb ihe (by simp only [tokens, List.length_append, List.length_cons]; omega)
  | numeral text => exact .numeral text
  | name text => exact .name text
  | group e ih =>
    exact ih.mono (by simp only [tokens, List.length_append, List.length_cons]; omega)
  | call function args ih =>
    -- The name of the function is the token of the call itself.
    exact .call function ih (by simp only [tokens, List.length_append, List.length_cons]; omega)
  | command function operand ih =>
    exact .call function (.cons ih .nil (Nat.le_refl _)) (Nat.lt_succ_self _)
  | noArguments | argumentsEnd => exact .nil
  | someArguments first rest ihf ihr =>
    exact .cons ihf ihr (by simp only [tokens, List.length_append]; omega)
  | argument e rest ihe ihr =>
    exact .cons ihe ihr (by simp only [tokens, List.length_append, List.length_cons]; omega)

end Grammar

/-! ## Expressions that are read -/

namespace Expr

/-- **The size of what is read.** An expression that is read from `t` tokens has at most `2 * t - 1`
nodes and a height of at most `t - 1`, so of at most 511. Showing and evaluating it takes no more than
512 calls inside one another. -/
theorem ofTokens_size_height {library : Library} {ts : List Token} {e : Expr}
    (h : ofTokens library ts = .ok e) :
    e.size + 1 ≤ 2 * ts.length ∧ e.height + 1 ≤ ts.length ∧ e.height ≤ 511 ∧
      e.renderWithin 512 = some e.render ∧
      ∀ ev : Evaluator, ev.evalWithin 512 e = some (ev.eval e) := by
  obtain ⟨d, hd, rfl⟩ := derivation_of_ofTokens h
  have hwithin : d.meaning.Within ts.length := hd.tokens ▸ d.meaning_within
  have hlength : ts.length ≤ 512 := hd.length
  have hheight := hwithin.height
  have hlimit : d.meaning.height < 512 := by omega
  exact ⟨hwithin.size, hheight, by omega, renderWithin_eq hlimit, fun ev => ev.evalWithin_eq hlimit⟩

/-- Factors side by side reach both bounds. -/
theorem ofTokens_size_height_juxtaposed :
    let ts : List Token := [.numeral "2", .word "x", .word "y"]
    let e : Expr := .binary .mul (.binary .mul (.numeral "2") (.name "x")) (.name "y")
    ofTokens .standard ts = .ok e ∧ e.size + 1 = 2 * ts.length ∧ e.height + 1 = ts.length ∧
      e.renderWithin 512 = some "((2 * x) * y)" := by
  intro ts e
  have hread : ofTokens .standard ts = .ok e := rfl
  obtain ⟨-, -, -, hshown, -⟩ := ofTokens_size_height hread
  exact ⟨hread, rfl, rfl, hshown⟩

end Expr
end Reckoner
