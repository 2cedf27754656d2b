/-
Zeros at the beginning of a line.

A zero in front of a digit makes another numeral of the same value. If a line begins with it, the
grammar has read it before it looks at any operator, and reads the other tokens as it would without
the zero. So it fails alike, or gives an expression with the same evaluation. Only an assignment would
name the numeral in its error, as its target.
-/
import Reckoner.Proofs.Calculation.Phases
import Reckoner.Proofs.Lexer.Exactness
import Reckoner.Proofs.Value.Numerals

set_option autoImplicit false

namespace Reckoner

namespace Grammar

/-! ## Readings that do the same -/

/-- Two readings fail with the same fault, or leave the same tokens behind expressions that evaluate
alike. -/
def SameReading (ev : Evaluator) (x y : Except SyntaxFault (Expr × List Token)) : Prop :=
  x.map (Prod.map ev.eval id) = y.map (Prod.map ev.eval id)

section SameReading

variable {ev : Evaluator} {x y : Except SyntaxFault (Expr × List Token)} {e e' : Expr}
  {ts : List Token}

theorem SameReading.ok (he : ev.eval e = ev.eval e') (ts : List Token) :
    SameReading ev (.ok (e, ts)) (.ok (e', ts)) :=
  congrArg (fun action => Except.ok (action, ts)) he

theorem SameReading.refl (x : Except SyntaxFault (Expr × List Token)) : SameReading ev x x :=
  rfl

/-- Either both fail, or both leave the same tokens. -/
theorem SameReading.cases (h : SameReading ev x y) :
    (∃ fault, x = .error fault ∧ y = .error fault) ∨
      ∃ e e' ts, x = .ok (e, ts) ∧ y = .ok (e', ts) ∧ ev.eval e = ev.eval e' := by
  rcases x with fault | ⟨e, ts⟩
  · rcases y with fault' | ⟨e', ts'⟩
    · exact Or.inl ⟨fault, rfl, by rw [Except.error.inj h]⟩
    · exact absurd h (by rintro ⟨⟩)
  · rcases y with fault' | ⟨e', ts'⟩
    · exact absurd h (by rintro ⟨⟩)
    · obtain ⟨he, rfl⟩ := Prod.mk.inj (Except.ok.inj h)
      exact Or.inr ⟨e, e', ts, rfl, rfl, he⟩

/-- Going on in the same way from readings that do the same. -/
theorem SameReading.bind {next : Expr × List Token → Except SyntaxFault (Expr × List Token)}
    (h : SameReading ev x y)
    (hnext : ∀ e e' ts, x = .ok (e, ts) → ev.eval e = ev.eval e' →
      SameReading ev (next (e, ts)) (next (e', ts))) :
    SameReading ev (x >>= next) (y >>= next) := by
  rcases h.cases with ⟨fault, rfl, rfl⟩ | ⟨e, e', ts, rfl, rfl, he⟩
  · exact .refl _
  · exact hnext e e' ts rfl he

/-- The left operand of an operation may be any that evaluates alike. -/
theorem eval_binary_left (op : BinaryOp) (right : Expr) (he : ev.eval e = ev.eval e') :
    ev.eval (.binary op e right) = ev.eval (.binary op e' right) := by
  rw [Evaluator.eval, Evaluator.eval, he]

/-- A chain goes on in the same way from operands that evaluate alike. It looks at the tokens behind
them, and at nothing of theirs. -/
theorem sameReading_chain (item : Phrase Expr)
    (link? : List Token → Option (BinaryOp × List Token)) (fuel : Nat)
    (he : ev.eval e = ev.eval e') :
    SameReading ev (chain item link? fuel e ts) (chain item link? fuel e' ts) := by
  -- On the fuel, for any two left operands: each round makes them the left operands of the next.
  induction fuel generalizing e e' ts with
  | zero => exact .ok he ts
  | succ fuel ih =>
    unfold chain
    split
    · exact .ok he ts
    · next op behind _ =>
      rcases item behind with fault | ⟨right, rest⟩
      · exact .refl _
      · exact ih (eval_binary_left op right he)

end SameReading

/-! ## The numeral at the beginning -/

section Numeral

variable {ev : Evaluator} {a b : String} {ts : List Token} {library : Library}

/-- One numeral in the place of another is raised to the same power. -/
theorem sameReading_power (h : ev.eval (.numeral a) = ev.eval (.numeral b)) (r : Rules) :
    SameReading ev (power library r (.numeral a :: ts)) (power library r (.numeral b :: ts)) := by
  have hatom : SameReading ev (atom library r (.numeral a :: ts))
      (atom library r (.numeral b :: ts)) := .ok h ts
  refine hatom.bind ?_
  rintro e e' behind - he
  dsimp only
  split
  · next behind =>
    rcases r.factor behind with fault | ⟨exponent, rest⟩
    · exact .refl _
    · exact .ok (eval_binary_left .pow exponent he) rest
  · exact .ok he _

/-- A factor that begins with a numeral has no sign, so it is a power. -/
theorem sameReading_factor (h : ev.eval (.numeral a) = ev.eval (.numeral b)) (n : Nat) :
    SameReading ev ((rules library n).factor (.numeral a :: ts))
      ((rules library n).factor (.numeral b :: ts)) := by
  cases n with
  | zero => exact .refl _
  | succ n => exact sameReading_power h _

/-- All factors of a product but the first one are the same, and so are all products of a sum. -/
theorem sameReading_product (h : ev.eval (.numeral a) = ev.eval (.numeral b)) (n : Nat) :
    SameReading ev (product (rules library n) (.numeral a :: ts))
      (product (rules library n) (.numeral b :: ts)) :=
  (sameReading_factor h n).bind fun _ _ _ _ he => sameReading_chain _ _ _ he

theorem sameReading_sum (h : ev.eval (.numeral a) = ev.eval (.numeral b)) (n : Nat) :
    SameReading ev (sum (rules library n) (.numeral a :: ts))
      (sum (rules library n) (.numeral b :: ts)) :=
  (sameReading_product h n).bind fun _ _ _ _ he => sameReading_chain _ _ _ he

/-- Without an equals sign, no sum is the target of an assignment. -/
theorem sameReading_expression (h : ev.eval (.numeral a) = ev.eval (.numeral b))
    (hassign : .op '=' ∉ ts) (n : Nat) :
    SameReading ev ((rules library n).expression (.numeral a :: ts))
      ((rules library n).expression (.numeral b :: ts)) := by
  cases n with
  | zero => exact .refl _
  | succ n =>
    refine (sameReading_sum h n).bind fun e e' rest hsum he => ?_
    obtain ⟨d, -, -, -, htokens⟩ := (rules_sound library n).sum hsum
    dsimp only
    split
    · next behind =>
      have hmem : Token.op '=' ∈ Token.numeral a :: ts := by rw [htokens]; simp
      exact absurd (List.mem_of_ne_of_mem (by rintro ⟨⟩) hmem) hassign
    · exact .ok he _

/-- The whole of the tokens is read with the same fault, or as expressions that evaluate alike. -/
theorem ofTokens_numeral (h : ev.eval (.numeral a) = ev.eval (.numeral b))
    (hassign : .op '=' ∉ ts) :
    (∃ fault, Expr.ofTokens library (.numeral a :: ts) = .error fault ∧
        Expr.ofTokens library (.numeral b :: ts) = .error fault) ∨
      ∃ e e', Expr.ofTokens library (.numeral a :: ts) = .ok e ∧
        Expr.ofTokens library (.numeral b :: ts) = .ok e' ∧ ev.eval e = ev.eval e' := by
  unfold Expr.ofTokens
  by_cases hlong : maxTokens < ts.length + 1
  · rw [List.length_cons, List.length_cons, if_pos hlong, if_pos hlong]
    exact Or.inl ⟨_, rfl, rfl⟩
  · rw [List.length_cons, List.length_cons, if_neg hlong, if_neg hlong]
    rcases (sameReading_expression h hassign maxNesting).cases with
      ⟨fault, hread, hread'⟩ | ⟨e, e', rest, hread, hread', he⟩
    · rw [hread, hread']
      exact Or.inl ⟨fault, rfl, rfl⟩
    · rw [hread, hread']
      cases rest with
      | nil => exact Or.inr ⟨e, e', rfl, rfl, he⟩
      | cons t rest => exact Or.inl ⟨.unexpected t, rfl, rfl⟩

end Numeral
end Grammar

namespace Evaluator

variable {ev : Evaluator} {line line' : String} {a b : String} {ts : List Token}

/-- A line may begin with another numeral of the same value, if it assigns nothing. -/
theorem calculate_numeral (hline : Token.ofText line = .ok (.numeral a :: ts))
    (hline' : Token.ofText line' = .ok (.numeral b :: ts)) (hassign : .op '=' ∉ ts)
    (h : ev.eval (.numeral a) = ev.eval (.numeral b)) (scope : Scope) :
    ev.calculate line scope = ev.calculate line' scope := by
  rcases Grammar.ofTokens_numeral h hassign with ⟨fault, hread, hread'⟩ | ⟨e, e', hread, hread', he⟩
  · rw [calculate_of_malformed hline hread, calculate_of_malformed hline' hread']
  · rw [calculate_of_read hline hread, calculate_of_read hline' hread', he]

end Evaluator

/-! ## A zero in front of a digit -/

namespace Token

/-- A line that begins with a digit or a point begins with a numeral, and the lexer goes on behind
it. -/
theorem ofChars_mantissa {c : Char} (hc : isMantissaChar c = true) (rest : List Char) :
    ofChars (c :: rest) = (ofChars (splitNumeral rest).2).map
      (.numeral (String.ofList (c :: (splitNumeral rest).1)) :: ·) := by
  have hcode := toNat_of_isMantissaChar hc
  have hblank : isBlank c = false := isBlank_of_visible (by omega) (by omega)
  rw [ofChars, if_neg (Bool.eq_false_iff.mp hblank), if_pos hc]
  rcases ofChars (splitNumeral rest).2 with c | ts
  · rfl
  · rfl

/-- One more digit in front goes with the numeral. -/
theorem splitNumeral_cons {c : Char} (hc : isMantissaChar c = true) (rest : List Char) :
    splitNumeral (c :: rest) = (c :: (splitNumeral rest).1, (splitNumeral rest).2) := by
  rw [splitNumeral, List.takeWhile_cons_of_pos hc, List.dropWhile_cons_of_pos hc]
  rfl

/-- Without points and the letter of a power of ten, there are only digits in a numeral. -/
theorem isDigit_of_mem_splitNumeral {rest : List Char}
    (hrest : ∀ c ∈ rest, c ≠ '.' ∧ c ≠ 'e' ∧ c ≠ 'E') {c : Char} (hc : c ∈ (splitNumeral rest).1) :
    c.isDigit = true := by
  rcases List.mem_append.mp hc with hmantissa | hpower
  · have hmem := List.takeWhile_subset _ hmantissa
    have hclass := List.all_eq_true.mp List.all_takeWhile c hmantissa
    exact isDigit_of_isMantissaChar hclass (hrest c hmem).1
  · rcases splitPower_shape (rest.dropWhile isMantissaChar)
      with hnil | ⟨e, sign, digits, heq, he, -⟩
    · rw [hnil] at hpower
      exact absurd hpower List.not_mem_nil
    · have hdropped : e ∈ rest.dropWhile isMantissaChar := by
        rw [← splitPower_append (rest.dropWhile isMantissaChar), heq]
        simp
      have hletter := (hrest e (List.dropWhile_subset _ hdropped)).2
      exact absurd he (not_or.mpr hletter)

end Token

namespace Evaluator

/-- A zero in front of digits adds nothing to their value. -/
theorem eval_numeral_zero_cons (ev : Evaluator) {ds : List Char} (hne : ds ≠ [])
    (hall : ∀ c ∈ ds, c.isDigit = true) :
    ev.eval (.numeral (String.ofList ('0' :: ds))) = ev.eval (.numeral (String.ofList ds)) := by
  have hzero : ∀ c ∈ '0' :: ds, c.isDigit = true := List.forall_mem_cons.mpr ⟨by decide, hall⟩
  have hsame : natOfDigits ('0' :: ds) = natOfDigits ds := rfl
  rw [eval, eval, Value.ofNumeral?_ofList_digits (List.cons_ne_nil _ _) hzero,
    Value.ofNumeral?_ofList_digits hne hall, hsame]

/-- A zero in front of a digit changes nothing, if the numeral that begins there is whole and the
line assigns nothing. -/
theorem calculate_zero_cons (ev : Evaluator) {d : Char} (hd : d.isDigit = true) {rest : List Char}
    (hrest : ∀ c ∈ rest, c ≠ '.' ∧ c ≠ 'e' ∧ c ≠ 'E') (hassign : '=' ∉ rest) (scope : Scope) :
    ev.calculate (String.ofList ('0' :: d :: rest)) scope =
      ev.calculate (String.ofList (d :: rest)) scope := by
  have hmantissa : Token.isMantissaChar d = true := Token.isMantissaChar_of_isDigit hd
  have hline := Token.ofChars_mantissa (c := '0') (by decide) (d :: rest)
  have hline' := Token.ofChars_mantissa hmantissa rest
  rw [Token.splitNumeral_cons hmantissa] at hline
  rw [← String.toList_ofList (l := '0' :: d :: rest)] at hline
  rw [← String.toList_ofList (l := d :: rest)] at hline'
  rcases hbehind : Token.ofChars (Token.splitNumeral rest).2 with c | ts
  · rw [hbehind] at hline hline'
    rw [calculate_of_stray hline, calculate_of_stray hline']
  · rw [hbehind] at hline hline'
    -- No token behind the numeral is an equals sign, and the numeral has the same value.
    refine calculate_numeral hline hline' (fun hmem => ?_) ?_ scope
    · obtain ⟨-, hplace⟩ := Token.comesFrom_of_ofChars hbehind _ hmem
      have hchar : '=' ∈ (Token.splitNumeral rest).2 := hplace.subset (by decide)
      refine hassign ?_
      rw [← Token.splitNumeral_append rest]
      exact List.mem_append_right _ hchar
    · refine ev.eval_numeral_zero_cons (List.cons_ne_nil _ _) ?_
      exact List.forall_mem_cons.mpr ⟨hd, fun c hc => Token.isDigit_of_mem_splitNumeral hrest hc⟩

end Evaluator
end Reckoner
