/-
Going on from a result.

An operator and digits that are typed behind a whole result are added to its text. The line is then
a sign, if the result is negative, a numeral, the operator and another numeral. For the operators of
sums and products the sign belongs to the first operand, so the operator is applied to the result. A
power binds more tightly than a sign: there the sign belongs to the power, and a negative result is
not the base.
-/
import Reckoner.Proofs.Display.Tokens
import Reckoner.Proofs.Grammar.Derivation
import Reckoner.Proofs.Session.Results

set_option autoImplicit false

namespace Reckoner

/-! ## Typing behind a result -/

namespace Session

variable {s : Session}

/-- An operator on a result is added to it, whatever the result ends with. -/
theorem pressOperator_result {op : Char} (hop : op ≠ '%') (hfresh : s.fresh = true)
    (hentry : s.entry ≠ failureText) :
    s.press (.operator op) =
      { s with entry := String.ofList (s.entry.toList ++ [op]), fresh := false } := by
  have hadd : ∀ cs, Entry.addOperator true op cs = cs ++ [op] := by
    intro cs
    unfold Entry.addOperator
    split
    · rw [Bool.true_or, if_pos rfl]
    · rfl
  have hword : s.entry.toList ≠ failureText.toList := fun h => hentry (String.toList_inj.mp h)
  rw [press, pressOperator, if_neg hop, edit, if_neg hword, hfresh, hadd]

/-- Digits are added to an entry that is no longer a result and no zero, as long as there is room.
-/
theorem pressAll_digits {ds : List Char} (hdigits : ∀ c ∈ ds, c.isDigit = true)
    (hfresh : s.fresh = false) (hlong : 2 ≤ s.entry.toList.length)
    (hroom : s.entry.toList.length + ds.length ≤ s.settings.entryLimit) :
    s.pressAll (ds.map .digit) = { s with entry := String.ofList (s.entry.toList ++ ds) } := by
  induction ds generalizing s with
  | nil =>
    rw [List.append_nil, String.ofList_toList]
    rfl
  | cons d ds ih =>
    obtain ⟨hd, hds⟩ := List.forall_mem_cons.mp hdigits
    rw [List.length_cons] at hroom
    have hpoint : d ≠ '.' := ne_of_isDigit hd (by decide)
    have hzero : s.entry.toList ≠ ['0'] := by
      intro h
      rw [h] at hlong
      exact absurd hlong (by decide)
    have hadd : Entry.addDigit s.settings.entryLimit d s.entry.toList = s.entry.toList ++ [d] := by
      rw [Entry.addDigit, if_neg fun h => hpoint h.1, if_neg (by omega), if_neg fun h => hzero h.1]
    have hpress : s.press (.digit d) =
        { s with entry := String.ofList (s.entry.toList ++ [d]), fresh := false } := by
      rw [press, pressDigit, hfresh, if_neg Bool.false_ne_true, edit, hadd]
    have hrun : s.pressAll ((d :: ds).map .digit) =
        (s.press (.digit d)).pressAll (ds.map .digit) := rfl
    rw [hrun, hpress, ih hds rfl]
    · rw [String.toList_ofList, List.append_assoc, hfresh]
      rfl
    · rw [String.toList_ofList, List.length_append]
      omega
    · rw [String.toList_ofList, List.length_append, List.length_singleton]
      dsimp only
      omega

/-- An operator and digits, typed behind a whole result. -/
theorem pressAll_result {n : Int} (hentry : s.entry = toString n) (hfresh : s.fresh = true)
    {op : BinaryOp} (hop : op ≠ .rem) {ds : List Char} (hdigits : ∀ c ∈ ds, c.isDigit = true)
    (hroom : (toString n).toList.length + 1 + ds.length ≤ s.settings.entryLimit) :
    s.pressAll (.operator op.symbol :: ds.map .digit) =
      { s with
        entry := String.ofList ((toString n).toList ++ op.symbol :: ds)
        fresh := false } := by
  -- No text of a whole number is the word for a failure.
  have hword : s.entry ≠ failureText := by
    intro h
    have hmem : 'E' ∈ (Value.whole n).resultText.toList := by
      rw [Value.resultText, ← hentry, h]
      decide
    rcases Value.mem_resultText hmem with hc | hc | hc | hc
    all_goals exact absurd hc (by decide)
  have hpercent : op.symbol ≠ '%' := by
    cases op with
    | rem => exact absurd rfl hop
    | add | sub | mul | div | pow => decide
  have hnonempty : 0 < (toString n).toList.length := by
    rw [toList_toString_int, List.length_append]
    have := Nat.length_toDigits_pos (b := 10) (n := n.natAbs)
    omega
  have hrun : s.pressAll (.operator op.symbol :: ds.map .digit) =
      (s.press (.operator op.symbol)).pressAll (ds.map .digit) := rfl
  rw [hrun, pressOperator_result hpercent hfresh hword, hentry, pressAll_digits hdigits rfl]
  · rw [String.toList_ofList, List.append_assoc]
    rfl
  · rw [String.toList_ofList, List.length_append, List.length_singleton]
    omega
  · rw [String.toList_ofList, List.length_append, List.length_singleton]
    exact hroom

end Session

/-! ## The line -/

theorem preparedLine_chained (n : Int) (op : BinaryOp) {ds : List Char}
    (hdigits : ∀ c ∈ ds, c.isDigit = true) :
    preparedLine (String.ofList ((toString n).toList ++ op.symbol :: ds)) =
      String.ofList ((toString n).toList ++ op.symbol :: ds) := by
  have hdigit : ∀ c : Char, c.isDigit = true → c ∉ ['×', '÷', 'π', '('] := by
    intro c hc hmem
    have hnone : ['×', '÷', 'π', '('].all (fun c => !c.isDigit) = true := by decide
    have hnot := List.all_eq_true.mp hnone c hmem
    rw [hc] at hnot
    exact Bool.false_ne_true hnot
  refine preparedLine_eq_self fun c hc => ?_
  rw [String.toList_ofList, toList_toString_int, List.append_assoc] at hc
  rcases List.mem_append.mp hc with hc | hc
  · rw [eq_of_mem_signText hc]
    decide
  rcases List.mem_append.mp hc with hc | hc
  · exact hdigit c (isDigit_of_mem_toDigits hc)
  rcases List.mem_cons.mp hc with rfl | hc
  · cases op <;> decide
  · exact hdigit c (hdigits c hc)

/-- The expression of a signed numeral, an operator and a numeral. -/
def chainedExpr (negative : Bool) (op : BinaryOp) (left right : String) : Expr :=
  match negative, op with
  | false, op => .binary op (.numeral left) (.numeral right)
  | true, .pow => .unary .negate (.binary .pow (.numeral left) (.numeral right))
  | true, op => .binary op (.unary .negate (.numeral left)) (.numeral right)

theorem Expr.ofTokens_chained (library : Library) (negative : Bool) (op : BinaryOp)
    (left right : String) :
    ofTokens library (signTokens negative ++ [.numeral left, op.token, .numeral right]) =
      .ok (chainedExpr negative op left right) := by
  cases negative <;> cases op <;> rfl

/-- The text of a whole number, an operator and digits, as tokens. -/
theorem Token.ofText_chained (n : Int) (op : BinaryOp) {ds : List Char} (hne : ds ≠ [])
    (hdigits : ∀ c ∈ ds, c.isDigit = true) :
    ofText (String.ofList ((toString n).toList ++ op.symbol :: ds)) =
      .ok (signTokens (decide (n < 0)) ++
        [.numeral (String.ofList (Nat.toDigits 10 n.natAbs)), op.token,
          .numeral (String.ofList ds)]) := by
  have hright : ofChars ds = .ok [.numeral (String.ofList ds)] := by
    have hread := ofChars_numeral (isNumeral_of_digits hne hdigits) Breaks.nil ofChars_nil
    rwa [String.toList_ofList, List.append_nil] at hread
  have hbreaks : Breaks (op.symbol :: ds) := .cons (by cases op <;> decide) ds
  have hleft := ofChars_numeral
    (isNumeral_of_digits Nat.toDigits_ne_nil fun _ hc => isDigit_of_mem_toDigits (n := n.natAbs) hc)
    hbreaks (ofChars_op op.isOperator_symbol hright)
  rw [String.toList_ofList] at hleft
  rw [ofText, String.toList_ofList, toList_toString_int, List.append_assoc]
  exact ofChars_sign _ hleft

namespace Evaluator

variable (ev : Evaluator) (scope : Scope)

theorem run_eval_digits {ds : List Char} (hne : ds ≠ []) (hdigits : ∀ c ∈ ds, c.isDigit = true) :
    (ev.eval (.numeral (String.ofList ds))).run scope = (.ok (.whole (natOfDigits ds)), scope) :=
  run_eval_numeral (Value.ofNumeral?_ofList_digits hne hdigits) ev scope

/-- The operator is applied to the signed numeral, unless it is that of powers. -/
theorem run_eval_chained (n : Int) (op : BinaryOp) {ds : List Char} (hne : ds ≠ [])
    (hdigits : ∀ c ∈ ds, c.isDigit = true) :
    (ev.eval (chainedExpr (decide (n < 0)) op (String.ofList (Nat.toDigits 10 n.natAbs))
        (String.ofList ds))).run scope =
      if op = .pow ∧ n < 0 then
        ((BinaryOp.pow.apply (.whole (-n)) (.whole (natOfDigits ds))).map Value.neg, scope)
      else (op.apply (.whole n) (.whole (natOfDigits ds)), scope) := by
  have hleft := ev.run_eval_digits scope Nat.toDigits_ne_nil
    fun _ hc => isDigit_of_mem_toDigits (n := n.natAbs) hc
  have hright := ev.run_eval_digits scope hne hdigits
  rw [natOfDigits_toDigits] at hleft
  by_cases hneg : n < 0
  · have habs : (n.natAbs : Int) = -n := by omega
    rw [decide_eq_true hneg]
    by_cases hpow : op = .pow
    · subst hpow
      rw [if_pos ⟨rfl, hneg⟩, chainedExpr, run_eval_negate, run_eval_binary, hleft]
      dsimp only
      rw [hright, habs]
      dsimp only
      rcases BinaryOp.pow.apply (.whole (-n)) (.whole (natOfDigits ds)) with error | value
      · rfl
      · rfl
    · have hexpr : ∀ left right, chainedExpr true op left right =
          .binary op (.unary .negate (.numeral left)) (.numeral right) := by
        intro left right
        cases op with
        | pow => exact absurd rfl hpow
        | add | sub | mul | div | rem => rfl
      rw [if_neg fun h => hpow h.1, hexpr, run_eval_binary, run_eval_negate, hleft]
      dsimp only
      rw [hright, habs, Value.neg, Int.neg_neg]
  · have habs : (n.natAbs : Int) = n := by omega
    rw [decide_eq_false hneg, if_neg fun h => hneg h.2, chainedExpr, run_eval_binary, hleft]
    dsimp only
    rw [hright, habs]

end Evaluator

/-! ## The session -/

namespace Session

/-- A whole result is the entry, and the next digit would replace it. -/
theorem entry_of_calculate {s s' : Session} {n : Int} (h : s.calculate = (.ok (.whole n), s')) :
    s'.entry = toString n ∧ s'.fresh = true := by
  rcases s.calculate_cases with ⟨value, after, -, hcalculate⟩ | ⟨error, after, hcalculate⟩
  · rw [hcalculate] at h
    obtain ⟨hvalue, rfl⟩ := Prod.mk.inj h
    obtain rfl := Except.ok.inj hvalue
    exact ⟨rfl, rfl⟩
  · rw [hcalculate] at h
    exact absurd (Prod.mk.inj h).1 (by rintro ⟨⟩)

/-- The outcome of what is typed behind a whole result. -/
theorem calculate_pressAll_result {s s' : Session} {n : Int}
    (hresult : s.calculate = (.ok (.whole n), s')) {op : BinaryOp} (hop : op ≠ .rem)
    {ds : List Char} (hne : ds ≠ []) (hdigits : ∀ c ∈ ds, c.isDigit = true)
    (hroom : (Value.whole n).resultText.length + 1 + ds.length ≤ s'.settings.entryLimit) :
    (s'.pressAll (.operator op.symbol :: ds.map .digit)).calculate.1 =
      (Evaluator.conclude
        (if op = .pow ∧ n < 0 then
          ((BinaryOp.pow.apply (.whole (-n)) (.whole (natOfDigits ds))).map Value.neg, s'.scope)
        else (op.apply (.whole n) (.whole (natOfDigits ds)), s'.scope))).1 := by
  obtain ⟨hentry, hfresh⟩ := entry_of_calculate hresult
  rw [calculate_fst, pressAll_result hentry hfresh hop hdigits hroom,
    preparedLine_chained n op hdigits]
  exact congrArg Prod.fst ((Evaluator.calculate_of_read (Token.ofText_chained n op hne hdigits)
    (Expr.ofTokens_chained _ _ op _ _) _).trans
    (congrArg Evaluator.conclude (Evaluator.run_eval_chained _ _ n op hne hdigits)))

/-- **Going on from a whole result.** A calculation gives the whole number `n`; then an operator
other than the remainder and digits are typed for which there is room, and that is calculated. The
outcome is that of the operator on `n` and the number of the digits, where a NaN counts as no
result, as it always does. But in the power of a negative `n` the sign is read last: the outcome is
the opposite of the power of `-n`. -/
theorem calculate_chained {s s' : Session} {n : Int}
    (hresult : s.calculate = (.ok (.whole n), s')) {op : BinaryOp} (hop : op ≠ .rem)
    {ds : List Char} (hne : ds ≠ []) (hdigits : ∀ c ∈ ds, c.isDigit = true)
    (hroom : (Value.whole n).resultText.length + 1 + ds.length ≤ s'.settings.entryLimit) :
    let chained := (s'.pressAll (.operator op.symbol :: ds.map .digit)).calculate.1
    ((op = .pow → 0 ≤ n) →
      chained = (Evaluator.conclude
        (op.apply (.whole n) (.whole (natOfDigits ds)), s'.scope)).1) ∧
    (op = .pow → n < 0 →
      chained = (Evaluator.conclude
        ((op.apply (.whole (-n)) (.whole (natOfDigits ds))).map Value.neg, s'.scope)).1) := by
  have houtcome := calculate_pressAll_result hresult hop hne hdigits hroom
  constructor
  · intro hnonneg
    rw [if_neg fun h => absurd (hnonneg h.1) (not_le.mpr h.2)] at houtcome
    exact houtcome
  · intro hpow hneg
    rw [if_pos ⟨hpow, hneg⟩, ← hpow] at houtcome
    exact houtcome

/-- A negative result times a number of two digits. -/
theorem calculate_chained_negative :
    let s := (start {}).pressAll [.digit '2', .operator '-', .digit '5']
    s.calculate.1 = .ok (.whole (-3)) ∧
      (s.calculate.2.pressAll [.operator '*', .digit '1', .digit '2']).calculate.1 =
        .ok (.whole (-36)) := by
  intro s
  have hvalue : s.calculate.1 = .ok (.whole (-3)) := eq_ok_of_toOption (by decide +kernel)
  have hmul : BinaryOp.mul ≠ .rem := by decide
  have hdigits : ∀ c ∈ ['1', '2'], c.isDigit = true := List.all_eq_true.mp (by decide)
  have hchained := (calculate_chained
    (Prod.ext hvalue rfl : s.calculate = (.ok (.whole (-3)), s.calculate.2))
    hmul (List.cons_ne_nil _ _) hdigits (by decide +kernel)).1 (by rintro ⟨⟩)
  exact ⟨hvalue, hchained⟩

/-- The square of -4 is 16, but what is typed behind the result is read as the opposite of the
square of 4. And a quotient of numbers that are both too large for a float is a NaN, which is no
result. -/
theorem chained_outcome_differs :
    let s := (start {}).pressAll [.digit '0', .operator '-', .digit '4']
    let t := { start { entryLimit := 700 } with entry := "10^309" }
    let ds : List Char := '1' :: List.replicate 309 '0'
    (s.calculate.1 = .ok (.whole (-4)) ∧
      (Value.whole (-4)).resultText.length + 1 + 1 ≤ s.calculate.2.settings.entryLimit ∧
      (s.calculate.2.pressAll [.operator '^', .digit '2']).calculate.1 = .ok (.whole (-16)) ∧
      BinaryOp.pow.apply (.whole (-4)) (.whole (natOfDigits ['2'])) = .ok (.whole 16)) ∧
    t.calculate.1 = .ok (.whole (10 ^ 309)) ∧
      (Value.whole (10 ^ 309)).resultText.length + 1 + ds.length ≤
        t.calculate.2.settings.entryLimit ∧
      (t.calculate.2.pressAll (.operator '/' :: ds.map .digit)).calculate.1 = .error .notANumber ∧
      ∃ value, BinaryOp.div.apply (.whole (10 ^ 309)) (.whole (natOfDigits ds)) = .ok value ∧
        value.isNaN = true := by
  intro s t ds
  have hvalue : t.calculate.1 = .ok (.whole (10 ^ 309)) := eq_ok_of_toOption (by decide +kernel)
  have hroom : (Value.whole (10 ^ 309)).resultText.length + 1 + ds.length ≤
      t.calculate.2.settings.entryLimit := by
    have hlimit : t.calculate.2.settings.entryLimit = 700 := by decide +kernel
    have hlength : (Value.whole (10 ^ 309)).resultText.length =
        (toString (10 ^ 309 : Int)).toList.length := rfl
    rw [hlimit, hlength, toList_toString_int]
    decide +kernel
  have hquotient : (BinaryOp.div.apply (.whole (10 ^ 309)) (.whole (natOfDigits ds))).toOption.any
      Value.isNaN = true := by decide +kernel
  obtain ⟨value, hoption, hnan⟩ := (Option.any_eq_true _ _).mp hquotient
  have hdiv := eq_ok_of_toOption hoption
  have hop : BinaryOp.div ≠ .rem := by decide
  have hdigits : ∀ c ∈ ds, c.isDigit = true := by
    refine List.forall_mem_cons.mpr ⟨by decide, fun c hc => ?_⟩
    rw [List.eq_of_mem_replicate hc]
    decide
  have hchained := calculate_pressAll_result
    (Prod.ext hvalue rfl : t.calculate = (.ok (.whole (10 ^ 309)), t.calculate.2))
    hop (List.cons_ne_nil _ _) hdigits hroom
  rw [if_neg (by decide), hdiv, Evaluator.conclude_of_isNaN rfl hnan] at hchained
  refine ⟨⟨eq_ok_of_toOption (by decide +kernel), by decide +kernel,
    eq_ok_of_toOption (by decide +kernel), rfl⟩, hvalue, hroom, hchained, value, hdiv, hnan⟩

end Session
end Reckoner
