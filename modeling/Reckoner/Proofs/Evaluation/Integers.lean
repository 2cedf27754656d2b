/-
Integer answers are exact.

An expression of numerals, names, signs and operators has a value over the integers, unless it
divides or leaves the domain of a remainder or a power somewhere. If evaluation gives a whole number
for it, every part of it has given one, because a real never becomes whole again. So the answer is
the value over the integers. The other direction needs the length of powers besides, and is the only
one that does.

Nothing is assigned in such an expression. Its parts are therefore all evaluated in the same scope,
and an outcome is a matter of the expression and that scope alone.
-/
import Reckoner.Proofs.Evaluation.Frame
import Reckoner.Proofs.Expr.Parts
import Reckoner.Proofs.Value.Integers

set_option autoImplicit false

namespace Reckoner

namespace Expr

/-! ## Arithmetic expressions -/

/-- Whether an expression has neither calls nor assignments, and only digits in its numerals. -/
def isArithmetic : Expr → Bool
  | .numeral text => !text.toList.isEmpty && text.toList.all Char.isDigit
  | .name _ => true
  | .unary _ operand => operand.isArithmetic
  | .binary _ left right => left.isArithmetic && right.isArithmetic
  | .call _ _ => false
  | .assign _ _ => false

/-- Whether all names in an expression are defined as whole numbers. -/
def NamesWhole (scope : Scope) (e : Expr) : Prop :=
  ∀ text, Part (.name text) e → ∃ n, scope.get? text = some (.whole n)

/-- The value over the integers, where there is one. -/
def integer? (scope : Scope) : Expr → Option Int
  | .numeral text => some (decimalReading text.toList)
  | .name text =>
    match scope.get? text with
    | some (.whole n) => some n
    | _ => none
  | .unary op operand => (operand.integer? scope).map op.onIntegers
  | .binary op left right => do
    let x ← left.integer? scope
    let y ← right.integer? scope
    op.onIntegers? x y
  | .call _ _ => none
  | .assign _ _ => none

/-- What keeps a value over the integers from being real, undefined or too long: there is no
quotient, no remainder by zero, and every power fits. -/
structure StaysWhole (scope : Scope) (e : Expr) : Prop where
  no_quotient : ∀ left right, ¬Part (.binary .div left right) e
  divisor_ne_zero : ∀ left right, Part (.binary .rem left right) e →
    right.integer? scope ≠ some 0
  power_fits : ∀ base exponent x y, Part (.binary .pow base exponent) e →
    base.integer? scope = some x → exponent.integer? scope = some y → PowerFits x y

/-- An operation has a value where its operands have, and the operator is defined on them. -/
theorem integer?_binary {scope : Scope} {op : BinaryOp} {left right : Expr} {n : Int}
    (h : (binary op left right).integer? scope = some n) :
    ∃ x y, left.integer? scope = some x ∧ right.integer? scope = some y ∧
      op.onIntegers? x y = some n := by
  rw [integer?] at h
  obtain ⟨x, hx, h₁⟩ := Option.bind_eq_some_iff.mp h
  obtain ⟨y, hy, h₂⟩ := Option.bind_eq_some_iff.mp h₁
  exact ⟨x, y, hx, hy, h₂⟩

section Parts

variable {scope : Scope} {part e : Expr}

theorem hasAssignment_of_isArithmetic (h : e.isArithmetic = true) : e.hasAssignment = false := by
  induction e with
  | numeral text => rfl
  | name text => rfl
  | unary op operand ih => exact ih h
  | binary op left right ihl ihr =>
    obtain ⟨hl, hr⟩ := Bool.and_eq_true_iff.mp h
    rw [hasAssignment, ihl hl, ihr hr]
    rfl
  | call function arguments => exact Bool.noConfusion h
  | assign target value => exact Bool.noConfusion h

theorem NamesWhole.of_part (h : e.NamesWhole scope) (hpart : Part part e) : part.NamesWhole scope :=
  fun text htext => h text (htext.trans hpart)

theorem StaysWhole.of_part (h : e.StaysWhole scope) (hpart : Part part e) : part.StaysWhole scope :=
  ⟨fun left right hdiv => h.no_quotient left right (hdiv.trans hpart),
    fun left right hrem => h.divisor_ne_zero left right (hrem.trans hpart),
    fun base exponent x y hpow => h.power_fits base exponent x y (hpow.trans hpart)⟩

end Parts
end Expr

namespace Evaluator

open Reckoner.Expr (Part)

/-! ## Outcomes -/

/-- The outcome of evaluation, apart from what it writes. -/
def outcome (ev : Evaluator) (scope : Scope) (e : Expr) : Except EvalError Value :=
  ((ev.eval e).run scope).1

section Outcomes

variable {ev : Evaluator} {scope : Scope} {e left right : Expr} {n : Int}

/-- Without assignments, the outcome is all there is to evaluation. -/
theorem run_eval_eq (h : e.hasAssignment = false) :
    (ev.eval e).run scope = (ev.outcome scope e, scope) :=
  Prod.ext rfl (ev.run_eval_snd h scope)

theorem outcome_unary (op : UnaryOp) (operand : Expr) :
    ev.outcome scope (.unary op operand) = (ev.outcome scope operand).map op.apply := by
  unfold outcome
  rw [eval, EvalM.run_bind]
  rcases (ev.eval operand).run scope with ⟨error | value, after⟩
  · rfl
  · rfl

theorem outcome_binary (op : BinaryOp) (hleft : left.hasAssignment = false) (right : Expr) :
    ev.outcome scope (.binary op left right) = (do
      let a ← ev.outcome scope left
      let b ← ev.outcome scope right
      op.apply a b) := by
  unfold outcome
  -- The right operand sees the scope that the left one leaves, which is the same.
  rw [run_eval_binary, run_eval_eq hleft]
  cases ev.outcome scope left with
  | error error => rfl
  | ok a =>
    dsimp only
    rcases (ev.eval right).run scope with ⟨error | b, after⟩
    · rfl
    · rfl

theorem outcome_numeral {text : String} (h : (Expr.numeral text).isArithmetic = true) :
    ev.outcome scope (.numeral text) = .ok (.whole (decimalReading text.toList)) := by
  obtain ⟨hne, hall⟩ := Bool.and_eq_true_iff.mp h
  have hne' : text.toList ≠ [] := by
    intro hnil
    rw [hnil] at hne
    exact Bool.noConfusion hne
  unfold outcome
  rw [eval, Value.ofNumeral?_of_digits hne' (List.all_eq_true.mp hall)]
  rfl

theorem outcome_name {text : String} {value : Value} (h : scope.get? text = some value) :
    ev.outcome scope (.name text) = .ok value := by
  show scope.read text = .ok value
  rw [Scope.read, h, Option.some_or]

/-! ## Whole outcomes -/

theorem outcome_unary_eq_whole {op : UnaryOp} {operand : Expr}
    (h : ev.outcome scope (.unary op operand) = .ok (.whole n)) :
    ∃ x, ev.outcome scope operand = .ok (.whole x) ∧ op.onIntegers x = n := by
  rw [outcome_unary] at h
  obtain ⟨value, hvalue, hwhole⟩ := map_eq_ok h
  obtain ⟨x, rfl, hx⟩ := UnaryOp.apply_eq_whole hwhole
  exact ⟨x, hvalue, hx⟩

theorem outcome_binary_eq_whole {op : BinaryOp} (hleft : left.hasAssignment = false)
    (h : ev.outcome scope (.binary op left right) = .ok (.whole n)) :
    ∃ x y, ev.outcome scope left = .ok (.whole x) ∧ ev.outcome scope right = .ok (.whole y) ∧
      op.onIntegers? x y = some n := by
  rw [outcome_binary op hleft] at h
  obtain ⟨a, ha, h₁⟩ := bind_eq_ok h
  obtain ⟨b, hb, h₂⟩ := bind_eq_ok h₁
  obtain ⟨x, y, rfl, rfl, hxy⟩ := BinaryOp.apply_eq_ok_whole h₂
  exact ⟨x, y, ha, hb, hxy⟩

/-- A whole outcome is the value over the integers. -/
theorem integer?_of_outcome (harith : e.isArithmetic = true) (hnames : e.NamesWhole scope)
    (h : ev.outcome scope e = .ok (.whole n)) : e.integer? scope = some n := by
  induction e generalizing n with
  | numeral text =>
    rw [outcome_numeral harith] at h
    exact congrArg some (Value.whole.inj (Except.ok.inj h))
  | name text =>
    obtain ⟨m, hm⟩ := hnames text .refl
    rw [outcome_name hm] at h
    rw [Expr.integer?, hm]
    exact congrArg some (Value.whole.inj (Except.ok.inj h))
  | unary op operand ih =>
    obtain ⟨x, hx, rfl⟩ := outcome_unary_eq_whole h
    rw [Expr.integer?, ih harith (hnames.of_part (.operand op .refl)) hx]
    rfl
  | binary op left right ihl ihr =>
    obtain ⟨hl, hr⟩ := Bool.and_eq_true_iff.mp harith
    obtain ⟨x, y, hx, hy, hxy⟩ :=
      outcome_binary_eq_whole (Expr.hasAssignment_of_isArithmetic hl) h
    rw [Expr.integer?, ihl hl (hnames.of_part (.left op right .refl)) hx,
      ihr hr (hnames.of_part (.right op left .refl)) hy]
    exact hxy
  | call function arguments => exact Bool.noConfusion harith
  | assign target value => exact Bool.noConfusion harith

/-- Nothing but whole outcomes makes a whole outcome. -/
theorem outcome_part {part : Expr} (hpart : Part part e) (harith : e.isArithmetic = true)
    (h : ev.outcome scope e = .ok (.whole n)) :
    part.isArithmetic = true ∧ ∃ m, ev.outcome scope part = .ok (.whole m) := by
  induction hpart generalizing n with
  | refl => exact ⟨harith, n, h⟩
  | operand op hpart ih =>
    obtain ⟨x, hx, -⟩ := outcome_unary_eq_whole h
    exact ih harith hx
  | left op right hpart ih =>
    obtain ⟨hl, hr⟩ := Bool.and_eq_true_iff.mp harith
    obtain ⟨x, y, hx, -, -⟩ := outcome_binary_eq_whole (Expr.hasAssignment_of_isArithmetic hl) h
    exact ih hl hx
  | right op left hpart ih =>
    obtain ⟨hl, hr⟩ := Bool.and_eq_true_iff.mp harith
    obtain ⟨x, y, -, hy, -⟩ := outcome_binary_eq_whole (Expr.hasAssignment_of_isArithmetic hl) h
    exact ih hr hy
  | argument function he hpart ih => exact Bool.noConfusion harith
  | target value hpart ih => exact Bool.noConfusion harith
  | value target hpart ih => exact Bool.noConfusion harith

/-- The operator of an expression that stays whole is defined over the integers, and not too long. -/
theorem onWholes_of_staysWhole {op : BinaryOp} {x y : Int}
    (hstays : (Expr.binary op left right).StaysWhole scope) (hx : left.integer? scope = some x)
    (hy : right.integer? scope = some y) :
    ∃ n, op.onIntegers? x y = some n ∧ op.onWholes x y = .ok (.whole n) := by
  have hdefined : ∃ n, op.onIntegers? x y = some n := by
    cases op with
    | add => exact ⟨_, rfl⟩
    | sub => exact ⟨_, rfl⟩
    | mul => exact ⟨_, rfl⟩
    | div => exact absurd .refl (hstays.no_quotient left right)
    | rem =>
      have hne : y ≠ 0 := by
        rintro rfl
        exact hstays.divisor_ne_zero left right .refl hy
      exact ⟨_, by rw [BinaryOp.onIntegers?, if_neg hne]⟩
    | pow =>
      have hfits := hstays.power_fits left right x y .refl hx hy
      exact ⟨_, by rw [BinaryOp.onIntegers?, if_neg (not_lt.mpr hfits.1)]⟩
  obtain ⟨n, hn⟩ := hdefined
  refine ⟨n, hn, BinaryOp.onWholes_of_onIntegers? hn ?_⟩
  rintro rfl
  exact hstays.power_fits left right x y .refl hx hy

/-- What stays whole has a value over the integers, and it is the outcome. -/
theorem outcome_of_staysWhole (harith : e.isArithmetic = true) (hnames : e.NamesWhole scope)
    (hstays : e.StaysWhole scope) :
    ∃ n, e.integer? scope = some n ∧ ev.outcome scope e = .ok (.whole n) := by
  induction e with
  | numeral text => exact ⟨_, rfl, outcome_numeral harith⟩
  | name text =>
    obtain ⟨n, hn⟩ := hnames text .refl
    exact ⟨n, by rw [Expr.integer?, hn], outcome_name hn⟩
  | unary op operand ih =>
    have hoperand : Part operand (.unary op operand) := .operand op .refl
    obtain ⟨x, hx, houtcome⟩ := ih harith (hnames.of_part hoperand) (hstays.of_part hoperand)
    refine ⟨op.onIntegers x, ?_, ?_⟩
    · rw [Expr.integer?, hx]
      rfl
    · rw [outcome_unary, houtcome]
      exact congrArg Except.ok (op.apply_whole x)
  | binary op left right ihl ihr =>
    have hpartl : Part left (.binary op left right) := .left op right .refl
    have hpartr : Part right (.binary op left right) := .right op left .refl
    obtain ⟨hl, hr⟩ := Bool.and_eq_true_iff.mp harith
    obtain ⟨x, hx, houtcomel⟩ := ihl hl (hnames.of_part hpartl) (hstays.of_part hpartl)
    obtain ⟨y, hy, houtcomer⟩ := ihr hr (hnames.of_part hpartr) (hstays.of_part hpartr)
    obtain ⟨n, hn, hwhole⟩ := onWholes_of_staysWhole hstays hx hy
    refine ⟨n, ?_, ?_⟩
    · rw [Expr.integer?, hx, hy]
      exact hn
    · rw [outcome_binary op (Expr.hasAssignment_of_isArithmetic hl), houtcomel, houtcomer]
      exact hwhole
  | call function arguments => exact Bool.noConfusion harith
  | assign target value => exact Bool.noConfusion harith

end Outcomes

/-! ## Exactness -/

/-- **Integer answers are exact.** Let all names of an arithmetic expression be whole. If evaluation
gives a whole number, then there is no quotient in the expression, every power has an exponent that
is not negative, every part has a whole outcome, and the number is the value over the integers.
Conversely, if the expression stays whole, evaluation gives its value over the integers. -/
theorem eval_integers_exact (ev : Evaluator) (scope : Scope) (e : Expr)
    (harith : e.isArithmetic = true) (hnames : e.NamesWhole scope) :
    (∀ n, ((ev.eval e).run scope).1 = .ok (.whole n) →
        (∀ left right, ¬Part (.binary .div left right) e) ∧
        (∀ base exponent, Part (.binary .pow base exponent) e →
          ∃ y, exponent.integer? scope = some y ∧ 0 ≤ y) ∧
        (∀ part, Part part e → ∃ m, (ev.eval part).run scope = (.ok (.whole m), scope)) ∧
        e.integer? scope = some n) ∧
      (e.StaysWhole scope →
        ∃ n, e.integer? scope = some n ∧ (ev.eval e).run scope = (.ok (.whole n), scope)) := by
  refine ⟨?_, ?_⟩
  · intro n h
    -- All four facts are read off this one: each part has a value, and it is its outcome.
    have hvalue : ∀ part, Part part e → ∃ m, ev.outcome scope part = .ok (.whole m) ∧
        part.hasAssignment = false ∧ part.integer? scope = some m := by
      intro part hpart
      obtain ⟨harith', m, hm⟩ := outcome_part hpart harith h
      exact ⟨m, hm, Expr.hasAssignment_of_isArithmetic harith',
        integer?_of_outcome harith' (hnames.of_part hpart) hm⟩
    refine ⟨?_, ?_, ?_, integer?_of_outcome harith hnames h⟩
    · intro left right hpart
      obtain ⟨m, -, -, hm⟩ := hvalue _ hpart
      obtain ⟨x, y, -, -, hxy⟩ := Expr.integer?_binary hm
      exact absurd hxy.symm (Option.some_ne_none m)
    · intro base exponent hpart
      obtain ⟨m, -, -, hm⟩ := hvalue _ hpart
      obtain ⟨x, y, -, hy, hxy⟩ := Expr.integer?_binary hm
      exact ⟨y, hy, BinaryOp.exponent_nonneg hxy⟩
    · intro part hpart
      obtain ⟨m, hm, hassign, -⟩ := hvalue part hpart
      exact ⟨m, by rw [run_eval_eq hassign, hm]⟩
  · intro hstays
    have hrun : (ev.eval e).run scope = (ev.outcome scope e, scope) :=
      run_eval_eq (Expr.hasAssignment_of_isArithmetic harith)
    obtain ⟨n, hn, houtcome⟩ := outcome_of_staysWhole harith hnames hstays
    exact ⟨n, hn, by rw [hrun, houtcome]⟩

/-- Where `x` is -2, the remainder of `x ^ 3` by 5 is -3. -/
theorem eval_integers_exact_negative_remainder :
    ((⟨.standard, .radians⟩ : Evaluator).eval
      (.binary .rem (.binary .pow (.name "x") (.numeral "3")) (.numeral "5"))).run
        (Scope.empty.define "x" (.whole (-2))) =
      (.ok (.whole (-3)), Scope.empty.define "x" (.whole (-2))) := by
  have hx : (Scope.empty.define "x" (.whole (-2))).get? "x" = some (.whole (-2)) := by
    rw [Scope.get?_define, if_pos rfl]
  have hbase : (Expr.name "x").integer? (Scope.empty.define "x" (.whole (-2))) = some (-2) := by
    rw [Expr.integer?, hx]
  have hvalue : (Expr.binary .rem (.binary .pow (.name "x") (.numeral "3"))
      (.numeral "5")).integer? (Scope.empty.define "x" (.whole (-2))) = some (-3) := by
    simp only [Expr.integer?, hx]
    decide
  have hnames : (Expr.binary .rem (.binary .pow (.name "x") (.numeral "3"))
      (.numeral "5")).NamesWhole (Scope.empty.define "x" (.whole (-2))) := by
    intro text htext
    simp only [Expr.part_binary, Expr.part_name, Expr.part_numeral, reduceCtorEq, false_or,
      or_false, Expr.name.injEq] at htext
    exact ⟨-2, htext ▸ hx⟩
  have hstays : (Expr.binary .rem (.binary .pow (.name "x") (.numeral "3"))
      (.numeral "5")).StaysWhole (Scope.empty.define "x" (.whole (-2))) := by
    refine ⟨by simp, ?_, ?_⟩
    · intro left right hpart
      simp only [Expr.part_binary, Expr.part_name, Expr.part_numeral, Expr.binary.injEq,
        reduceCtorEq, true_and, false_and, or_self, or_false] at hpart
      rw [hpart.2]
      decide
    · intro base exponent x y hpart hx' hy'
      simp only [Expr.part_binary, Expr.part_name, Expr.part_numeral, Expr.binary.injEq,
        reduceCtorEq, true_and, false_and, or_self, or_false, false_or] at hpart
      rw [hpart.1, hbase] at hx'
      rw [hpart.2] at hy'
      obtain rfl := Option.some.inj hx'
      obtain rfl := Option.some.inj hy'
      exact ⟨by decide, Or.inr (by decide)⟩
  obtain ⟨n, hn, hrun⟩ := (eval_integers_exact _ _ _ (by decide) hnames).2 hstays
  rw [hrun, Option.some.inj (hn.symm.trans hvalue)]

end Evaluator
end Reckoner
