/-
The grammar accepts exactly the tokens it derives.

Soundness and completeness of the rules meet at the whole of the tokens, where nothing is left
behind the phrase. The two limits are part of the statement: the number of tokens is checked before
the first rule opens, and the nesting of the derivation is what the rules count while they read.
-/
import Reckoner.Proofs.Grammar.Soundness
import Reckoner.Proofs.Grammar.Completeness

set_option autoImplicit false

namespace Reckoner

open Grammar

/-- A derivation of just these tokens that keeps to the limits. -/
structure Grammar.Derivation.Accepts (library : Library) (ts : List Token)
    (d : Derivation .expression) : Prop where
  admissible : d.Admissible library
  tokens : d.tokens = ts
  length : ts.length ≤ maxTokens
  nesting : d.nesting ≤ maxNesting

namespace Expr

variable {library : Library} {ts : List Token} {e : Expr}

/-- What is read is the meaning of a derivation that keeps to the limits. -/
theorem derivation_of_ofTokens (h : ofTokens library ts = .ok e) :
    ∃ d : Derivation .expression, d.Accepts library ts ∧ d.meaning = e := by
  unfold ofTokens at h
  split at h
  · exact absurd h (by rintro ⟨⟩)
  · next hlength =>
    obtain ⟨⟨e', rest⟩, hread, h₁⟩ := bind_eq_ok h
    obtain ⟨d, hadm, hnest, rfl, rfl⟩ := (rules_sound library maxNesting).expression hread
    cases rest with
    | nil =>
      have htokens : d.tokens = d.tokens ++ [] := (List.append_nil _).symm
      exact ⟨d, ⟨hadm, htokens, Nat.le_of_not_lt hlength, hnest⟩, Except.ok.inj h₁⟩
    | cons t rest => exact absurd h₁ (by rintro ⟨⟩)

/-- What has such a derivation is read as its meaning. -/
theorem ofTokens_of_derivation {d : Derivation .expression} (hd : d.Accepts library ts) :
    ofTokens library ts = .ok d.meaning := by
  have hread : (rules library maxNesting).expression ts = .ok (d.meaning, []) := by
    rw [← hd.tokens, ← List.append_nil d.tokens]
    exact (rules_complete library maxNesting).expression hd.admissible hd.nesting (.nil _)
  unfold ofTokens
  rw [if_neg (Nat.not_lt.mpr hd.length), hread]
  rfl

/-- Tokens are read as an expression exactly if it is the meaning of a derivation that keeps to the
limits. The tokens have at most one admissible derivation, and all others are refused. -/
theorem ofTokens_accepts_exactly (library : Library) (ts : List Token) :
    (∀ e, ofTokens library ts = .ok e ↔
        ∃ d : Derivation .expression, d.Accepts library ts ∧ d.meaning = e) ∧
      (∀ d d' : Derivation .expression, d.Admissible library → d'.Admissible library →
        d.tokens = ts → d'.tokens = ts → d = d') ∧
      ((¬∃ d : Derivation .expression, d.Accepts library ts) →
        ∃ fault, ofTokens library ts = .error fault) := by
  refine ⟨fun e => ⟨derivation_of_ofTokens, ?_⟩, ?_, ?_⟩
  · rintro ⟨d, hd, rfl⟩
    exact ofTokens_of_derivation hd
  · intro d d' hd hd' htokens htokens'
    exact Derivation.eq_of_tokens_eq hd hd' (htokens.trans htokens'.symm)
  · intro hnone
    cases h : ofTokens library ts with
    | error fault => exact ⟨fault, rfl⟩
    | ok e =>
      obtain ⟨d, hd, -⟩ := derivation_of_ofTokens h
      exact absurd ⟨d, hd⟩ hnone

/-- The power belongs to the argument of a call without parentheses. -/
example : ofTokens .standard [.word "sin", .word "x", .op '^', .numeral "2"] =
    .ok (.call "sin" [.binary .pow (.name "x") (.numeral "2")]) := by
  rfl

end Expr
end Reckoner
