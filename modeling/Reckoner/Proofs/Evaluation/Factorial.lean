/-
The factorial of a whole number.

The argument of a function is converted to a float first, and a whole number has no bound, so what the
factorial is asked of may not be the number any more. That does no harm. The numbers up to the limit of
the factorial are far below the point from which on floats leave numbers out, and come back as they
are. A number beyond the limit may come back as another one, but not as one within it, since order is
kept; and a number too large for the floats does not come back at all. Each is refused, with the
message for what the float is.

The factorial itself is a product taken from left to right. In front of each factor the product is the
factorial of the number before it.
-/
import Reckoner.Evaluation
import Reckoner.Proofs.Binary64.Wholes

set_option autoImplicit false

namespace Reckoner

open Binary64 (wholeLimit)

/-! ## The product -/

/-- Multiplying the next `k` numbers goes from one factorial to another. -/
theorem foldl_range'_factorial (m k : Nat) :
    (List.range' (m + 1) k).foldl (fun product i => product * i) m.factorial =
      (m + k).factorial := by
  induction k generalizing m with
  | zero => rfl
  | succ k ih =>
    rw [List.range'_succ, List.foldl_cons, Nat.mul_comm, ← Nat.factorial_succ, ih]
    congr 1
    omega

theorem factorial_eq (n : Nat) : factorial n = n.factorial := by
  cases n with
  | zero => rfl
  | succ n =>
    have hproduct := foldl_range'_factorial 1 n
    rw [Nat.factorial_one, Nat.add_comm 1 n] at hproduct
    exact hproduct

/-! ## The limits -/

theorem factorialWithin_of_neg {n : Int} (h : n < 0) : factorialWithin n = .error .negative := by
  rw [factorialWithin, if_pos h]

theorem factorialWithin_of_gt {n : Int} (h : 5000 < n) :
    factorialWithin n = .error (.tooLarge 5000) := by
  have hlimit : (maxFactorial : Int) < n := h
  rw [factorialWithin, if_neg (by omega), if_pos hlimit]
  rfl

theorem factorialWithin_of_le {n : Int} (hn : 0 ≤ n) (h : n ≤ 5000) :
    factorialWithin n = .ok (n.toNat.factorial : Int) := by
  have hlimit : ¬(maxFactorial : Int) < n := not_lt.mpr h
  rw [factorialWithin, if_neg (not_lt.mpr hn), if_neg hlimit, factorial_eq]

/-! ## Whole numbers -/

/-- Why a whole number has no factorial: its float is infinite, or it is negative, or too large. -/
def factorialRefusal (n : Int) : FactorialFault :=
  if wholeLimit ≤ n.natAbs then .notWhole (Float.ofInt n)
  else if n < 0 then .negative
  else .tooLarge 5000

/-- The float of a whole number stands on the same side of the limits as the number. -/
theorem factorialOf_whole (n : Int) :
    factorialOf (.whole n) =
      if 0 ≤ n ∧ n ≤ 5000 then .ok (n.toNat.factorial : Int) else .error (factorialRefusal n) := by
  have hfloat : (Value.whole n).toFloat = Float.ofInt n := rfl
  by_cases hinfinite : wholeLimit ≤ n.natAbs
  · have hback := Binary64.toInt?_ofInt_eq_none hinfinite
    have hrange : ¬(0 ≤ n ∧ n ≤ 5000) := by
      have hlarge := Binary64.le_wholeLimit.trans hinfinite
      omega
    rw [factorialOf, hfloat, hback, if_neg hrange, factorialRefusal, if_pos hinfinite]
  · obtain ⟨k, hback, hside⟩ := Binary64.toInt?_ofInt (not_le.mp hinfinite)
    rw [factorialOf, hfloat, hback]
    dsimp only
    by_cases hneg : n < 0
    · have hk : k < 0 := by omega
      rw [factorialWithin_of_neg hk, if_neg (by omega), factorialRefusal, if_neg hinfinite,
        if_pos hneg]
    by_cases hlarge : 5000 < n
    · have hk : 5000 < k := by omega
      rw [factorialWithin_of_gt hk, if_neg (by omega), factorialRefusal, if_neg hinfinite,
        if_neg hneg]
    · -- Within the limits the number is far from `2^53`, so it has come back as itself.
      obtain rfl : k = n := by omega
      rw [factorialWithin_of_le (not_lt.mp hneg) (not_lt.mp hlarge),
        if_pos ⟨not_lt.mp hneg, not_lt.mp hlarge⟩]

/-! ## Calls -/

namespace Evaluator

/-- A call with one argument evaluates it, and then applies the function. -/
theorem run_eval_call_factorial (ev : Evaluator) {function : String}
    (hget : ev.library.get? function = some .factorial) {argument : Expr} {v : Value}
    {scope after : Scope} (h : (ev.eval argument).run scope = (.ok v, after)) :
    (ev.eval (.call function [argument])).run scope =
      (((factorialOf v).map Value.whole).mapError EvalError.factorial, after) := by
  have hargument : (EvalM.all [ev.eval argument]).run scope = (.ok [v], after) := by
    rw [EvalM.all, EvalM.run_bind, h]
    rfl
  have hfunction : ev.library.call ev.mode function [v] =
      ((factorialOf v).map Value.whole).mapError EvalError.factorial := by
    rw [Library.call, hget]
    rfl
  have hcall : ev.eval (.call function [argument]) = (do
      let values ← EvalM.all [ev.eval argument]
      EvalM.ofExcept (ev.library.call ev.mode function values)) := by
    rw [eval, evalAll_eq_map, List.map_singleton]
    unfold call
    rw [hget]
  rw [hcall, EvalM.run_bind, hargument]
  dsimp only
  rw [hfunction]
  rfl

/-- **The factorial of any whole number.** A call of the factorial on an argument that is worth the
whole number `n` gives `n!` if `n` lies between 0 and 5000, and otherwise fails as out of range,
however large `n` is in either direction. Either way the scope is what the argument left. -/
theorem eval_factorial (ev : Evaluator) {function : String}
    (hget : ev.library.get? function = some .factorial) {argument : Expr} {n : Int}
    {scope after : Scope} (h : (ev.eval argument).run scope = (.ok (.whole n), after)) :
    (0 ≤ n ∧ n ≤ 5000 → (ev.eval (.call function [argument])).run scope =
        (.ok (.whole n.toNat.factorial), after)) ∧
      (n < 0 ∨ 5000 < n → (ev.eval (.call function [argument])).run scope =
        (.error (.factorial (factorialRefusal n)), after)) := by
  rw [ev.run_eval_call_factorial hget h, factorialOf_whole]
  refine ⟨fun hrange => ?_, fun hrange => ?_⟩
  · rw [if_pos hrange]
    rfl
  · rw [if_neg (by omega)]
    rfl

/-- The argument `-(9 ^ 400)` is far beyond the floats. It is refused as no whole number, because its
float is infinite. -/
theorem eval_factorial_infinite :
    let ev : Evaluator := ⟨.standard, .degrees⟩
    let argument : Expr := .unary .negate (.binary .pow (.numeral "9") (.numeral "400"))
    let scope := Scope.ofList [("x", .whole 7)]
    ev.library.get? "fact" = some .factorial ∧
      (ev.eval argument).run scope = (.ok (.whole (-9 ^ 400)), scope) ∧
      (ev.eval (.call "fact" [argument])).run scope =
        (.error (.factorial (factorialRefusal (-9 ^ 400))), scope) := by
  intro ev argument scope
  have hget : ev.library.get? "fact" = some .factorial := rfl
  have hargument : (ev.eval argument).run scope = (.ok (.whole (-9 ^ 400)), scope) := by
    rfl
  have hneg : (-9 ^ 400 : Int) < 0 := neg_lt_zero.mpr (by positivity)
  exact ⟨hget, hargument, (ev.eval_factorial hget hargument).2 (Or.inl hneg)⟩

end Evaluator
end Reckoner
