/-
How the rules of the grammar go on, by the tokens that are left.

Every phrase takes at least one token. So the fuel of a loop plays no part, as long as there is as much
of it as there are tokens: the loop ends before, at a token that does not go on with it. The rules that
may go on behind a first part do so at one token alone, and return the part as it is where another one
stands there.
-/
import Reckoner.Proofs.Grammar.Soundness
import Reckoner.Proofs.Grammar.Completeness

set_option autoImplicit false

namespace Reckoner.Grammar

/-! ## Progress -/

/-- A phrase that takes at least one token. -/
def Shortens {α : Type} (p : Phrase α) : Prop :=
  ∀ {ts : List Token} {a : α} {rest : List Token}, p ts = .ok (a, rest) → rest.length < ts.length

namespace Rules.Sound

variable {library : Library} {n : Nat} {r : Rules}

/-- Behind a phrase that has a token there are fewer tokens than before it. -/
theorem length_lt {t : Token} {front tokens rest : List Token} (h : tokens = t :: front) :
    rest.length < (tokens ++ rest).length := by
  rw [h, List.cons_append, List.length_cons, List.length_append]
  omega

/-- An expression takes a token: that with which its derivation begins. So do a factor and a
product. -/
theorem expression_shortens (hr : r.Sound library n) : Shortens r.expression := by
  intro ts e rest h
  obtain ⟨d, -, -, -, rfl⟩ := hr.expression h
  obtain ⟨t, us, htokens, -⟩ := d.expression_head
  exact length_lt htokens

theorem factor_shortens (hr : r.Sound library n) : Shortens r.factor := by
  intro ts e rest h
  obtain ⟨⟨d, -, -, -, rfl⟩, -⟩ := hr.factor h
  obtain ⟨t, us, htokens, -⟩ := d.factor_head
  exact length_lt htokens

theorem product_shortens (hr : r.Sound library n) : Shortens (Grammar.product r) := by
  intro ts e rest h
  obtain ⟨d, -, -, -, rfl⟩ := hr.product h
  obtain ⟨t, us, htokens, -⟩ := d.product_head
  exact length_lt htokens

end Rules.Sound

/-! ## Loops -/

section Loops

variable {item : Phrase Expr} {link? : List Token → Option (BinaryOp × List Token)}
  {ts : List Token}

/-- Where there is no link the chain is over, whatever the fuel. -/
theorem chain_of_none {fuel : Nat} {left : Expr} (h : link? ts = none) :
    chain item link? fuel left ts = .ok (left, ts) := by
  cases fuel with
  | zero => rfl
  | succ fuel =>
    rw [chain, h]

/-- A chain reads the same with any fuel that there are tokens for. -/
theorem chain_fuel (hshort : Shortens item)
    (hlink : ∀ {ts op us}, link? ts = some (op, us) → ts ≠ [] ∧ us.length ≤ ts.length)
    {fuel fuel' : Nat} (hfuel : ts.length ≤ fuel) (hfuel' : ts.length ≤ fuel') (left : Expr) :
    chain item link? fuel left ts = chain item link? fuel' left ts := by
  -- On the fuel of one reading, for any of the other. A round takes one from both, and an operand
  -- takes a token at least, so there is enough of both behind it.
  induction fuel generalizing fuel' left ts with
  | zero =>
    have hnil : ts = [] := List.eq_nil_of_length_eq_zero (Nat.le_zero.mp hfuel)
    cases hnext : link? ts with
    | none => rw [chain_of_none hnext, chain_of_none hnext]
    | some next => exact absurd hnil (hlink hnext).1
  | succ fuel ih =>
    cases hnext : link? ts with
    | none => rw [chain_of_none hnext, chain_of_none hnext]
    | some next =>
      obtain ⟨op, us⟩ := next
      obtain ⟨hne, hle⟩ := hlink hnext
      cases fuel' with
      | zero => exact absurd (List.eq_nil_of_length_eq_zero (Nat.le_zero.mp hfuel')) hne
      | succ fuel' =>
        rw [chain, chain, hnext]
        dsimp only
        cases hread : item us with
        | error fault => rfl
        | ok read =>
          have hlt := hshort hread
          exact ih (by omega) (by omega) _

/-- Further arguments are the same with any fuel that there are tokens for. -/
theorem moreArguments_fuel {r : Rules} (hshort : Shortens r.expression) {fuel fuel' : Nat}
    (hfuel : ts.length ≤ fuel) (hfuel' : ts.length ≤ fuel') :
    moreArguments r fuel ts = moreArguments r fuel' ts := by
  induction fuel generalizing fuel' ts with
  | zero =>
    obtain rfl := List.eq_nil_of_length_eq_zero (Nat.le_zero.mp hfuel)
    cases fuel' with
    | zero => rfl
    | succ fuel' => rfl
  | succ fuel ih =>
    cases fuel' with
    | zero =>
      obtain rfl := List.eq_nil_of_length_eq_zero (Nat.le_zero.mp hfuel')
      rfl
    | succ fuel' =>
      unfold moreArguments
      split
      · next ts =>
        rw [List.length_cons] at hfuel hfuel'
        cases hread : r.expression ts with
        | error fault => rfl
        | ok read =>
          have hlt := hshort hread
          have hmore : moreArguments r fuel read.2 = moreArguments r fuel' read.2 :=
            ih (by omega) (by omega)
          dsimp only [bind, Except.bind]
          rw [hmore]
      · rfl

end Loops

/-! ## Branches of the rules -/

theorem head?_ne {t u : Token} (h : t ≠ u) (ts : List Token) : (t :: ts).head? ≠ some u :=
  fun heq => h (Option.some.inj heq)

/-- Any other token leaves the parenthesis open. -/
theorem closing_of_ne {t : Token} (h : t ≠ .op ')') (ts : List Token) :
    closing (t :: ts) = .error .unclosed := by
  unfold closing
  split
  · next heq => exact absurd (List.cons.inj heq).1 h
  · rfl

/-- Without a comma there are no further arguments, whatever the fuel. -/
theorem moreArguments_of_ne {r : Rules} {fuel : Nat} {ts : List Token}
    (h : ts.head? ≠ some (.op ',')) : moreArguments r fuel ts = .ok ([], ts) := by
  cases fuel with
  | zero => rfl
  | succ fuel =>
    unfold moreArguments
    split
    · exact absurd rfl h
    · rfl

/-- What stands behind the base of a power. -/
def raised (r : Rules) (base : Expr) : Phrase Expr
  | .op '^' :: ts => do
    let (exponent, ts) ← r.factor ts
    .ok (.binary .pow base exponent, ts)
  | ts => .ok (base, ts)

/-- A power is its base and what stands behind it. -/
theorem power_eq (library : Library) (r : Rules) (ts : List Token) :
    power library r ts = (do let (base, ts) ← atom library r ts; raised r base ts) :=
  rfl

/-- Without a `^` the base is returned as it is. -/
theorem raised_of_ne {r : Rules} {base : Expr} {ts : List Token} (h : ts.head? ≠ some (.op '^')) :
    raised r base ts = .ok (base, ts) := by
  unfold raised
  split
  · exact absurd rfl h
  · rfl

/-- What stands behind the target of an assignment, or behind a sum that is none. -/
def assigned (r : Rules) (left : Expr) : Phrase Expr
  | .op '=' :: ts => do
    let (right, ts) ← r.expression ts
    .ok (.assign left right, ts)
  | ts => .ok (left, ts)

/-- An expression is a sum and what stands behind it. -/
theorem expression_eq (r : Rules) (ts : List Token) :
    expression r ts = (do let (left, ts) ← sum r ts; assigned r left ts) :=
  rfl

/-- Without an `=` the sum is returned as it is. -/
theorem assigned_of_ne {r : Rules} {left : Expr} {ts : List Token}
    (h : ts.head? ≠ some (.op '=')) : assigned r left ts = .ok (left, ts) := by
  unfold assigned
  split
  · exact absurd rfl h
  · rfl

end Reckoner.Grammar
