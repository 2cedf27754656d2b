/-
Reading undoes showing.

The tokens of a shown expression are derived by the grammar, and their derivation means the
expression again. An operand is shown as an atom: what is no leaf or call stands in parentheses. So
its derivation can take the place of an operand of any operator, and behind the name of a function
or the sign of an assignment one goes back to the rule for expressions.

How deep the rules nest is counted along. A pair of parentheses opens the rule for expressions, its
operand the rule for factors, and a sign or an exponent the rule for factors once more. That makes
three rules for each level of the tree, and two for the expression around it.
-/
import Reckoner.Proofs.Display.Tokens
import Reckoner.Proofs.Expr.Height
import Reckoner.Proofs.Grammar.Acceptance
import Reckoner.Proofs.Grammar.Operation

set_option autoImplicit false

namespace Reckoner

/-! ## Derivations of shown expressions -/

namespace Expr

open Grammar

/-- The tokens of the expression are derived as an operand, with three rules for each level. -/
def ShownAsOperand (library : Library) (e : Expr) : Prop :=
  ∃ d : Derivation .atom, d.isClosed = true ∧ d.Admissible library ∧ d.nesting ≤ 3 * e.height ∧
    d.tokens = e.tokens ∧ d.meaning = e

/-- The tokens of the expression are derived as an expression, with two rules more. -/
def ShownAsWhole (library : Library) (e : Expr) : Prop :=
  ∃ d : Derivation .expression, d.Admissible library ∧ d.nesting ≤ 3 * e.height + 2 ∧
    d.tokens = e.tokens ∧ d.meaning = e

section Shown

variable {library : Library}

/-- An operand is an expression by itself. The two rules more are those for expressions and for
factors. -/
theorem ShownAsOperand.whole {e : Expr} (h : e.ShownAsOperand library) :
    e.ShownAsWhole library := by
  obtain ⟨d, -, hadm, hnest, htokens, hmeaning⟩ := h
  refine ⟨.value (.ofFactor (.single d)), ?_, ?_, ?_, hmeaning⟩
  · simp [hadm]
  · simp only [Derivation.ofFactor, Derivation.nesting]
    omega
  · simp [htokens]

/-- A sign with its operand is an operand in parentheses. -/
theorem shownAsOperand_unary {op : UnaryOp} {operand : Expr}
    (h : operand.ShownAsOperand library) : (unary op operand).ShownAsOperand library := by
  obtain ⟨d, -, hadm, hnest, htokens, rfl⟩ := h
  -- The three rules: the expression in parentheses, the sign, and the operand behind it.
  refine ⟨.group (.value (.ofFactor (.signed op (.single d)))), rfl, ?_, ?_, ?_, rfl⟩
  · simp [hadm]
  · simp only [Derivation.ofFactor, Derivation.nesting, height]
    omega
  · simp [htokens, tokens]

/-- So is an operation. Its left operand is closed, as the base of a power has to be. -/
theorem shownAsOperand_binary {op : BinaryOp} {left right : Expr}
    (hl : left.ShownAsOperand library) (hr : right.ShownAsOperand library) :
    (binary op left right).ShownAsOperand library := by
  obtain ⟨dl, hclosed, hadml, hnestl, htokensl, rfl⟩ := hl
  obtain ⟨dr, -, hadmr, hnestr, htokensr, rfl⟩ := hr
  have hadm := Derivation.admissible_operation op hclosed hadml hadmr
  have hnest := Derivation.nesting_operation_le op
    (Nat.le_trans hnestl (Nat.mul_le_mul_left 3 (Nat.le_max_left _ _)))
    (Nat.le_trans hnestr (Nat.mul_le_mul_left 3 (Nat.le_max_right _ _)))
  refine ⟨.group (.value (.operation dl dr op)), rfl, hadm, ?_, ?_, ?_⟩
  · rw [Derivation.nesting, Derivation.nesting, height]
    omega
  · rw [Derivation.tokens, Derivation.tokens, Derivation.tokens_operation, htokensl, htokensr,
      List.append_assoc, tokens]
    rfl
  · rw [Derivation.meaning, Derivation.meaning, Derivation.meaning_operation]

/-- Further arguments are derived one by one. Assignments may be among them, since commas hold them
apart. -/
theorem exists_moreArguments {es : List Expr} (hes : ∀ e ∈ es, e.ShownAsWhole library) :
    ∃ d : Derivation .moreArguments, d.Admissible library ∧
      d.nesting ≤ 3 * argumentsHeight es ∧ d.tokens = moreArgumentTokens es ∧ d.meaning = es := by
  induction es with
  | nil => exact ⟨.argumentsEnd, trivial, Nat.zero_le _, rfl, rfl⟩
  | cons e es ih =>
    obtain ⟨he, hes⟩ := List.forall_mem_cons.mp hes
    obtain ⟨first, hadm, hnest, htokens, hmeaning⟩ := he
    obtain ⟨more, hadmm, hnestm, htokensm, hmeaningm⟩ := ih hes
    refine ⟨.argument first more, ⟨hadm, hadmm⟩, ?_, ?_, ?_⟩
    · rw [Derivation.nesting, argumentsHeight]
      omega
    · rw [Derivation.tokens, htokens, htokensm, moreArgumentTokens]
    · rw [Derivation.meaning, hmeaning, hmeaningm]

/-- A call is an operand, with its arguments in parentheses of its own. -/
theorem shownAsOperand_call {function : String} {arguments : List Expr}
    (hfunction : library.contains function = true)
    (hes : ∀ e ∈ arguments, e.ShownAsWhole library) :
    (call function arguments).ShownAsOperand library := by
  cases arguments with
  | nil => exact ⟨.call function .noArguments, rfl, ⟨hfunction, trivial⟩, Nat.zero_le _, rfl, rfl⟩
  | cons e es =>
    obtain ⟨he, hes⟩ := List.forall_mem_cons.mp hes
    obtain ⟨first, hadm, hnest, htokens, hmeaning⟩ := he
    obtain ⟨more, hadmm, hnestm, htokensm, hmeaningm⟩ := exists_moreArguments hes
    refine ⟨.call function (.someArguments first more), rfl, ⟨hfunction, hadm, hadmm⟩, ?_, ?_, ?_⟩
    · rw [Derivation.nesting, Derivation.nesting, height, argumentsHeight]
      omega
    · rw [Derivation.tokens, Derivation.tokens, htokens, htokensm, tokens, argumentTokens]
    · rw [Derivation.meaning, Derivation.meaning, hmeaning, hmeaningm]

/-- An assignment has no parentheses, so it is an expression only. -/
theorem shownAsWhole_assign {target value : Expr} (ht : target.ShownAsOperand library)
    (hv : value.ShownAsWhole library) : (assign target value).ShownAsWhole library := by
  obtain ⟨dt, -, hadmt, hnestt, htokenst, rfl⟩ := ht
  obtain ⟨dv, hadmv, hnestv, htokensv, rfl⟩ := hv
  refine ⟨.assignment (.ofFactor (.single dt)) dv, ?_, ?_, ?_, rfl⟩
  · simp [hadmt, hadmv]
  · simp only [Derivation.ofFactor, Derivation.nesting, height]
    omega
  · simp [htokenst, htokensv, tokens]

/-- An expression that can be shown is derived by the grammar, as an operand if it is no
assignment. -/
theorem Printable.shown {e : Expr} (he : e.Printable library) :
    (e.isAssignment = false → e.ShownAsOperand library) ∧ e.ShownAsWhole library := by
  induction e with
  | numeral text =>
    have hoperand : (Expr.numeral text).ShownAsOperand library :=
      ⟨.numeral text, rfl, trivial, Nat.zero_le _, rfl, rfl⟩
    exact ⟨fun _ => hoperand, hoperand.whole⟩
  | name text =>
    cases he with
    | name hshape hname =>
      have hoperand : (Expr.name text).ShownAsOperand library :=
        ⟨.name text, rfl, hname, Nat.zero_le _, rfl, rfl⟩
      exact ⟨fun _ => hoperand, hoperand.whole⟩
  | unary op operand ih =>
    cases he with
    | unary hassign hoperand =>
      have hshown : (Expr.unary op operand).ShownAsOperand library :=
        shownAsOperand_unary ((ih hoperand).1 hassign)
      exact ⟨fun _ => hshown, hshown.whole⟩
  | binary op left right ihl ihr =>
    cases he with
    | binary hassignl hassignr hleft hright =>
      have hshown : (Expr.binary op left right).ShownAsOperand library :=
        shownAsOperand_binary ((ihl hleft).1 hassignl) ((ihr hright).1 hassignr)
      exact ⟨fun _ => hshown, hshown.whole⟩
  | call function arguments ih =>
    cases he with
    | call hfunction harguments =>
      have hshown : (Expr.call function arguments).ShownAsOperand library :=
        shownAsOperand_call hfunction fun e hmem => (ih e hmem (harguments e hmem)).2
      exact ⟨fun _ => hshown, hshown.whole⟩
  | assign target value iht ihv =>
    cases he with
    | assign hassign htarget hvalue =>
      have hshown : (Expr.assign target value).ShownAsWhole library :=
        shownAsWhole_assign ((iht htarget).1 hassign) (ihv hvalue).2
      exact ⟨fun hnot => Bool.noConfusion hnot, hshown⟩

end Shown

/-! ## The round trip -/

/-- The functions of the calculator have words for names. With such a library, an expression of
height at most 42 that can be shown is read back from its text, unless the text is too long. -/
theorem ofTokens_render :
    Library.standard.NamesAreWords ∧
      ∀ library : Library, library.NamesAreWords → ∀ e : Expr, e.Printable library →
        e.height ≤ 42 → ∃ ts, Token.ofText e.render = .ok ts ∧
          (ts.length ≤ maxTokens → ofTokens library ts = .ok e) := by
  refine ⟨Library.standard_namesAreWords, ?_⟩
  intro library hwords e he hheight
  obtain ⟨d, hadm, hnest, htokens, hmeaning⟩ := he.shown.2
  refine ⟨e.tokens, (he.spelledBy hwords).ofText_render, ?_⟩
  intro hlength
  -- 3 * 42 + 2 is just the limit.
  have hmax : d.nesting ≤ maxNesting := by
    rw [maxNesting]
    omega
  have haccepts : d.Accepts library e.tokens := ⟨hadm, htokens, hlength, hmax⟩
  rw [ofTokens_of_derivation haccepts, hmeaning]

/-- A signed exponent, which nests the deepest for its height. -/
theorem ofTokens_render_signed_exponent :
    ∃ ts, Token.ofText (binary .pow (.name "x")
        (.unary .negate (.call "sin" [.numeral "1.5e3"]))).render = .ok ts ∧
      (ts.length ≤ maxTokens → ofTokens .standard ts =
        .ok (.binary .pow (.name "x") (.unary .negate (.call "sin" [.numeral "1.5e3"])))) := by
  have hnumeral : Token.IsNumeral "1.5e3" := by
    refine ⟨'1', ['.', '5'], ['e', '3'], rfl, rfl, List.all_eq_true.mp rfl, Or.inr ?_⟩
    exact ⟨'e', [], ['3'], rfl, Or.inl rfl, Or.inl rfl, by decide, List.all_eq_true.mp rfl⟩
  have hcall : (call "sin" [.numeral "1.5e3"]).Printable .standard := by
    refine .call (by decide) ?_
    intro argument hmem
    rw [List.mem_singleton.mp hmem]
    exact .numeral hnumeral
  have he : (binary .pow (.name "x")
      (.unary .negate (.call "sin" [.numeral "1.5e3"]))).Printable .standard :=
    .binary rfl rfl (.name (by decide) (by decide)) (.unary rfl hcall)
  exact ofTokens_render.2 .standard ofTokens_render.1 _ he (by decide)

end Expr
end Reckoner
