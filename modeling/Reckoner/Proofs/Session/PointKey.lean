/-
The key of the decimal point.

The key looks for a point as far back as the last operator. The operand that is being typed may be
shorter than that, since it also begins behind a parenthesis, a comma or an equals sign. So the text
that the key looks at has two parts, the operand and what encloses it: the open call with its earlier
arguments, the open parenthesis, or the target of an assignment. Where no point stands in the
enclosing part, the key does what one expects, and types a point exactly if the operand has none.
A point in the enclosing part, such as that of an earlier argument, blocks the key as well.
-/
import Mathlib.Data.List.DropRight
import Reckoner.Session.Basic

set_option autoImplicit false

namespace Reckoner

namespace Entry

/-- The operand being typed: the part of a text behind its last operator, parenthesis, comma or equals
sign. -/
def typedOperand (cs : List Char) : List Char :=
  cs.rtakeWhile fun c => !Token.isOperator c

/-- What stands in front of the operand being typed, back to the last operator. -/
def enclosing (cs : List Char) : List Char :=
  (operand cs).rdropWhile fun c => !Token.isOperator c

/-- Every operator that the keypad types is a token by itself. -/
theorem isOperator_token {c : Char} (h : isOperator c = true) : Token.isOperator c = true := by
  simp only [isOperator, decide_eq_true_eq, List.mem_cons, List.not_mem_nil, or_false] at h
  rcases h with rfl | rfl | rfl | rfl | rfl | rfl <;> decide

/-- The key looks at the operand and at what encloses it. -/
theorem enclosing_append_typedOperand (cs : List Char) :
    enclosing cs ++ typedOperand cs = operand cs := by
  have hshorter : (operand cs).rtakeWhile (fun c => !Token.isOperator c) = typedOperand cs := by
    simp only [operand, typedOperand, List.rtakeWhile, List.reverse_reverse,
      List.takeWhile_takeWhile]
    congr 2
    funext c
    by_cases hc : isOperator c = true
    · simp [hc, isOperator_token hc]
    · simp [hc]
  rw [enclosing, ← hshorter, List.rdropWhile_append_rtakeWhile]

theorem point_mem_operand_iff (cs : List Char) :
    '.' ∈ operand cs ↔ '.' ∈ enclosing cs ∨ '.' ∈ typedOperand cs := by
  rw [← enclosing_append_typedOperand, List.mem_append]

theorem addDigit_point {limit : Nat} {cs : List Char} (hroom : cs.length < limit) :
    addDigit limit '.' cs = if '.' ∈ operand cs then cs else cs ++ ['.'] := by
  have hlimit : ¬limit ≤ cs.length := by omega
  simp [addDigit, hlimit]

end Entry

namespace Session

/-- While there is room, the key adds a point, or does nothing at all. -/
theorem press_point {s : Session} (hfresh : s.fresh = false)
    (hroom : s.entry.length < s.settings.entryLimit) :
    s.press (.digit '.') =
      if '.' ∈ Entry.operand s.entry.toList then s else { s with entry := s.entry ++ "." } := by
  have hlength : s.entry.toList.length < s.settings.entryLimit := by
    rwa [String.length_toList]
  rw [press, pressDigit, if_neg (by simp [hfresh]), edit, Entry.addDigit_point hlength]
  by_cases hpoint : '.' ∈ Entry.operand s.entry.toList
  · rw [if_pos hpoint, if_pos hpoint, String.ofList_toList, ← hfresh]
  · rw [if_neg hpoint, if_neg hpoint, String.ofList_append, String.ofList_toList, ← hfresh]

/-- **The point key.** On an entry that is being typed and has room, the key adds a point exactly if
there is none in the operand being typed, and none between the operand and the last operator before
it. Otherwise nothing changes. So in every entry without a point in the enclosing part, the key adds
one exactly if the operand has none. -/
theorem point_typed_iff {s : Session} (hfresh : s.fresh = false)
    (hroom : s.entry.length < s.settings.entryLimit) :
    let enclosing := Entry.enclosing s.entry.toList
    let operand := Entry.typedOperand s.entry.toList
    ((s.press (.digit '.')).entry = s.entry ++ "." ↔ '.' ∉ enclosing ∧ '.' ∉ operand) ∧
      ('.' ∈ enclosing ∨ '.' ∈ operand → s.press (.digit '.') = s) ∧
      ('.' ∉ enclosing →
        ((s.press (.digit '.')).entry = s.entry ++ "." ↔ '.' ∉ operand)) := by
  intro enclosing operand
  have hlonger : s.entry ≠ s.entry ++ "." := by
    intro heq
    have := congrArg String.length heq
    simp at this
  have hadds : (s.press (.digit '.')).entry = s.entry ++ "." ↔
      '.' ∉ enclosing ∧ '.' ∉ operand := by
    rw [press_point hfresh hroom, ← not_or, ← Entry.point_mem_operand_iff]
    by_cases hpoint : '.' ∈ Entry.operand s.entry.toList
    · simp [hpoint, hlonger]
    · simp [hpoint]
  refine ⟨hadds, fun hpoint => ?_, fun hnone => ?_⟩
  · rw [press_point hfresh hroom, if_pos ((Entry.point_mem_operand_iff _).mpr hpoint)]
  · rw [hadds]
    simp [hnone]

/-- The point of the first summand does not keep one out of the upper bound. -/
theorem point_typed_iff_upper_bound :
    let s := (start {}).pressAll [.digit '1', .digit '.', .digit '5', .operator '+',
      .function "integral(", .symbol "x", .symbol ",", .digit '0', .symbol ",", .digit '1']
    s.entry = "1.5+integral(x,0,1" ∧ s.fresh = false ∧ s.entry.length < s.settings.entryLimit ∧
      '.' ∉ Entry.enclosing s.entry.toList ∧ '.' ∉ Entry.typedOperand s.entry.toList ∧
      (s.press (.digit '.')).entry = s.entry ++ "." := by
  intro s
  have hentry : s.entry = "1.5+integral(x,0,1" := by decide +kernel
  have hfresh : s.fresh = false := by decide +kernel
  have hroom : s.entry.length < s.settings.entryLimit := by decide +kernel
  have henclosing : '.' ∉ Entry.enclosing s.entry.toList := by
    rw [hentry]
    decide
  have hoperand : '.' ∉ Entry.typedOperand s.entry.toList := by
    rw [hentry]
    decide
  obtain ⟨-, -, hadds⟩ := point_typed_iff hfresh hroom
  exact ⟨hentry, hfresh, hroom, henclosing, hoperand, (hadds henclosing).mpr hoperand⟩

/-- The point of the lower bound keeps one out of the upper bound, although that one has none. -/
theorem point_blocked_by_lower_bound :
    let s := (start {}).pressAll [.function "integral(", .symbol "x", .symbol ",", .digit '0',
      .digit '.', .digit '5', .symbol ",", .digit '1']
    s.entry = "integral(x,0.5,1" ∧ s.fresh = false ∧ s.entry.length < s.settings.entryLimit ∧
      Entry.typedOperand s.entry.toList = ['1'] ∧
      (s.press (.digit '.')).entry = "integral(x,0.5,1" ∧
      (s.press (.digit '.')).entry ≠ s.entry ++ "." := by
  intro s
  have hentry : s.entry = "integral(x,0.5,1" := by decide +kernel
  have hpressed : (s.press (.digit '.')).entry = "integral(x,0.5,1" := by decide +kernel
  refine ⟨hentry, by decide +kernel, by decide +kernel, ?_, hpressed, ?_⟩
  · rw [hentry]
    decide
  · rw [hpressed, hentry]
    decide

end Session
end Reckoner
