/-
What the grammar reads is derived by its rules.

A reading takes tokens off the front and returns the rest. If it succeeds, some admissible
derivation has just the tokens it took and means what it returned, and the rules that were open on
the way were allowed to be. One fact about the rest goes along: behind a factor there is never a
`^`. It is what makes the derivations admissible, since a chain of factors then meets no `^`, and a
call without parentheses is never raised to a power.
-/
import Reckoner.Proofs.Grammar.Unambiguous

set_option autoImplicit false

namespace Reckoner.Grammar

/-- Some admissible derivation takes the tokens before `rest` off the front of `ts`, means `a`, and
has at most `n` rules open at once. -/
def Derives (library : Library) (n : Nat) (s : Symbol) (ts : List Token) (a : s.Meaning)
    (rest : List Token) : Prop :=
  ∃ d : Derivation s, d.Admissible library ∧ d.nesting ≤ n ∧ d.meaning = a ∧ ts = d.tokens ++ rest

/-- Whatever the two rules read is derived, with at most `n` rules open at once. -/
structure Rules.Sound (library : Library) (n : Nat) (r : Rules) : Prop where
  expression : ∀ {ts e rest}, r.expression ts = .ok (e, rest) →
    Derives library n .expression ts e rest
  factor : ∀ {ts e rest}, r.factor ts = .ok (e, rest) →
    Derives library n .factor ts e rest ∧ Symbol.factor.Stops rest

/-! ## Links of chains -/

/-- A link of a sum is one of its operators, which is taken. -/
theorem sumLink?_eq_some {ts rest : List Token} {op : BinaryOp}
    (h : sumLink? ts = some (op, rest)) : (op = .add ∨ op = .sub) ∧ ts = op.token :: rest := by
  unfold sumLink? at h
  split at h
  · obtain ⟨rfl, rfl⟩ := Prod.mk.inj (Option.some.inj h)
    exact ⟨Or.inl rfl, rfl⟩
  · obtain ⟨rfl, rfl⟩ := Prod.mk.inj (Option.some.inj h)
    exact ⟨Or.inr rfl, rfl⟩
  · exact absurd h.symm (Option.some_ne_none _)

/-- A link of a product is an operator, or what begins an atom, which then stays in front. -/
theorem productLink?_eq_some {ts rest : List Token} {op : BinaryOp}
    (h : productLink? ts = some (op, rest)) :
    ((op = .mul ∨ op = .div ∨ op = .rem ∨ op = .pow) ∧ ts = op.token :: rest) ∨
      (op = .mul ∧ rest = ts ∧ ts.head?.any Token.opensAtom) := by
  unfold productLink? at h
  split at h
  all_goals first
    | exact absurd h.symm (Option.some_ne_none _)
    | obtain ⟨rfl, rfl⟩ := Prod.mk.inj (Option.some.inj h)
  · exact Or.inl ⟨Or.inl rfl, rfl⟩
  · exact Or.inl ⟨Or.inr (Or.inl rfl), rfl⟩
  · exact Or.inl ⟨Or.inr (Or.inr (Or.inl rfl)), rfl⟩
  · exact Or.inl ⟨Or.inr (Or.inr (Or.inr rfl)), rfl⟩
  · exact Or.inr ⟨rfl, rfl, rfl⟩
  · exact Or.inr ⟨rfl, rfl, rfl⟩
  · exact Or.inr ⟨rfl, rfl, rfl⟩

/-! ## Single tokens -/

/-- A factor goes on with a `^` only. -/
theorem stops_factor {rest : List Token} (h : ∀ ts, rest = .op '^' :: ts → False) :
    Symbol.factor.Stops rest := by
  intro t ht
  cases rest with
  | nil => exact absurd ht (by rintro ⟨⟩)
  | cons t' ts =>
    obtain rfl := Option.some.inj ht
    cases t' with
    | numeral text => rfl
    | word text => rfl
    | op c =>
      refine decide_eq_false fun hc => ?_
      obtain rfl := List.mem_singleton.mp hc
      exact h ts rfl

/-- What closes is a parenthesis, which is taken. -/
theorem eq_of_closing {ts rest : List Token} {u : Unit} (h : closing ts = .ok (u, rest)) :
    ts = .op ')' :: rest := by
  unfold closing at h
  split at h
  · obtain ⟨-, rfl⟩ := Prod.mk.inj (Except.ok.inj h)
    rfl
  · exact absurd h (by rintro ⟨⟩)

/-! ## The rules, given those inside -/

namespace Rules.Sound

variable {library : Library} {n : Nat} {r : Rules} {ts rest : List Token} {left e : Expr}

/-- The steps of a product. Each one leaves no `^` in front, so the next one is none. -/
theorem productSteps (hr : r.Sound library n) {fuel : Nat} (hts : Symbol.factor.Stops ts)
    (h : chain r.factor productLink? fuel left ts = .ok (e, rest)) :
    ∃ f : Expr → Expr, Derives library n .productSteps ts f rest ∧ f left = e := by
  -- On the fuel, as the reader recurses on it. That it suffices plays no part here: a chain that
  -- runs out of it has read a chain all the same.
  induction fuel generalizing left ts with
  | zero =>
    obtain ⟨rfl, rfl⟩ := Prod.mk.inj (Except.ok.inj h)
    exact ⟨_, ⟨.productEnd, trivial, Nat.zero_le _, rfl, rfl⟩, rfl⟩
  | succ fuel ih =>
    unfold chain at h
    split at h
    · obtain ⟨rfl, rfl⟩ := Prod.mk.inj (Except.ok.inj h)
      exact ⟨_, ⟨.productEnd, trivial, Nat.zero_le _, rfl, rfl⟩, rfl⟩
    · next op ts₁ hlink =>
      obtain ⟨⟨right, ts₂⟩, hitem, hchain⟩ := bind_eq_ok h
      obtain ⟨⟨operand, hadm, hnest, rfl, htokens⟩, hstops⟩ := hr.factor hitem
      obtain ⟨f, ⟨steps, hadms, hnests, rfl, rfl⟩, rfl⟩ := ih hstops hchain
      rcases productLink?_eq_some hlink with ⟨hop, rfl⟩ | ⟨rfl, rfl, hopens⟩
      · -- The factor before this one has left no `^` in front.
        have hpow : op ≠ .pow := by
          rintro rfl
          exact absurd hts.head (by decide)
        refine ⟨_, ⟨.productStep op hop operand steps, ⟨hpow, hadm, hadms⟩,
          Nat.max_le.mpr ⟨hnest, hnests⟩, rfl, ?_⟩, rfl⟩
        rw [htokens, Derivation.tokens, List.cons_append, List.append_assoc]
      · refine ⟨_, ⟨.juxtaposed operand steps, ⟨?_, hadm, hadms⟩,
          Nat.max_le.mpr ⟨hnest, hnests⟩, rfl, ?_⟩, rfl⟩
        · -- The link has taken nothing, so its token is the first one of the operand.
          obtain ⟨t, us, hoperand, -⟩ := operand.factor_head
          rw [htokens, hoperand] at hopens
          rw [hoperand]
          exact hopens
        · rw [htokens, Derivation.tokens, List.append_assoc]

/-- A product, of its first factor and the steps behind it. The factor has left no `^` in front of
them. -/
theorem product (hr : r.Sound library n) (h : Grammar.product r ts = .ok (e, rest)) :
    Derives library n .product ts e rest := by
  obtain ⟨⟨left, ts₁⟩, hitem, hchain⟩ := bind_eq_ok h
  obtain ⟨⟨first, hadm, hnest, rfl, rfl⟩, hstops⟩ := hr.factor hitem
  obtain ⟨f, ⟨steps, hadms, hnests, rfl, rfl⟩, rfl⟩ := hr.productSteps hstops hchain
  exact ⟨.product first steps, ⟨hadm, hadms⟩, Nat.max_le.mpr ⟨hnest, hnests⟩, rfl,
    (List.append_assoc _ _ _).symm⟩

/-- The steps of a sum. Nothing has to be known of what is in front, since every link has its
operator. -/
theorem sumSteps (hr : r.Sound library n) {fuel : Nat}
    (h : chain (Grammar.product r) sumLink? fuel left ts = .ok (e, rest)) :
    ∃ f : Expr → Expr, Derives library n .sumSteps ts f rest ∧ f left = e := by
  induction fuel generalizing left ts with
  | zero =>
    obtain ⟨rfl, rfl⟩ := Prod.mk.inj (Except.ok.inj h)
    exact ⟨_, ⟨.sumEnd, trivial, Nat.zero_le _, rfl, rfl⟩, rfl⟩
  | succ fuel ih =>
    unfold chain at h
    split at h
    · obtain ⟨rfl, rfl⟩ := Prod.mk.inj (Except.ok.inj h)
      exact ⟨_, ⟨.sumEnd, trivial, Nat.zero_le _, rfl, rfl⟩, rfl⟩
    · next op ts₁ hlink =>
      obtain ⟨⟨right, ts₂⟩, hitem, hchain⟩ := bind_eq_ok h
      obtain ⟨operand, hadm, hnest, rfl, rfl⟩ := hr.product hitem
      obtain ⟨f, ⟨steps, hadms, hnests, rfl, rfl⟩, rfl⟩ := ih hchain
      obtain ⟨hop, rfl⟩ := sumLink?_eq_some hlink
      refine ⟨_, ⟨.sumStep op hop operand steps, ⟨hadm, hadms⟩,
        Nat.max_le.mpr ⟨hnest, hnests⟩, rfl, ?_⟩, rfl⟩
      rw [Derivation.tokens, List.cons_append, List.append_assoc]

theorem sum (hr : r.Sound library n) (h : Grammar.sum r ts = .ok (e, rest)) :
    Derives library n .sum ts e rest := by
  obtain ⟨⟨left, ts₁⟩, hitem, hchain⟩ := bind_eq_ok h
  obtain ⟨first, hadm, hnest, rfl, rfl⟩ := hr.product hitem
  obtain ⟨f, ⟨steps, hadms, hnests, rfl, rfl⟩, rfl⟩ := hr.sumSteps hchain
  exact ⟨.sum first steps, ⟨hadm, hadms⟩, Nat.max_le.mpr ⟨hnest, hnests⟩, rfl,
    (List.append_assoc _ _ _).symm⟩

/-- Further arguments, each behind a comma. -/
theorem moreArguments (hr : r.Sound library n) {fuel : Nat} {es : List Expr}
    (h : Grammar.moreArguments r fuel ts = .ok (es, rest)) :
    Derives library n .moreArguments ts es rest := by
  induction fuel generalizing es ts with
  | zero =>
    obtain ⟨rfl, rfl⟩ := Prod.mk.inj (Except.ok.inj h)
    exact ⟨.argumentsEnd, trivial, Nat.zero_le _, rfl, rfl⟩
  | succ fuel ih =>
    unfold Grammar.moreArguments at h
    split at h
    · obtain ⟨⟨e, ts₁⟩, hitem, h₁⟩ := bind_eq_ok h
      obtain ⟨⟨es', ts₂⟩, hmore, h₂⟩ := bind_eq_ok h₁
      obtain ⟨rfl, rfl⟩ := Prod.mk.inj (Except.ok.inj h₂)
      obtain ⟨first, hadm, hnest, rfl, rfl⟩ := hr.expression hitem
      obtain ⟨more, hadmm, hnestm, rfl, rfl⟩ := ih hmore
      refine ⟨.argument first more, ⟨hadm, hadmm⟩, Nat.max_le.mpr ⟨hnest, hnestm⟩, rfl, ?_⟩
      rw [Derivation.tokens, List.cons_append, List.append_assoc]
    · obtain ⟨rfl, rfl⟩ := Prod.mk.inj (Except.ok.inj h)
      exact ⟨.argumentsEnd, trivial, Nat.zero_le _, rfl, rfl⟩

/-- The arguments of a call stand in parentheses, or are one factor that begins with none. -/
theorem arguments (hr : r.Sound library n) {es : List Expr}
    (h : Grammar.arguments r ts = .ok (es, rest)) :
    (∃ ts', ts = .op '(' :: ts' ∧ Derives library n .arguments ts' es (.op ')' :: rest)) ∨
      (ts.head? ≠ some (.op '(') ∧ Symbol.factor.Stops rest ∧
        ∃ operand, es = [operand] ∧ Derives library n .factor ts operand rest) := by
  unfold Grammar.arguments at h
  split at h
  · obtain ⟨rfl, rfl⟩ := Prod.mk.inj (Except.ok.inj h)
    exact Or.inl ⟨_, rfl, .noArguments, trivial, Nat.zero_le _, rfl, rfl⟩
  · obtain ⟨⟨e, ts₁⟩, hitem, h₁⟩ := bind_eq_ok h
    obtain ⟨⟨es', ts₂⟩, hmore, h₂⟩ := bind_eq_ok h₁
    obtain ⟨⟨⟨⟩, ts₃⟩, hclose, h₃⟩ := bind_eq_ok h₂
    obtain ⟨rfl, rfl⟩ := Prod.mk.inj (Except.ok.inj h₃)
    obtain ⟨first, hadm, hnest, rfl, rfl⟩ := hr.expression hitem
    obtain ⟨more, hadmm, hnestm, rfl, rfl⟩ := hr.moreArguments hmore
    obtain rfl := eq_of_closing hclose
    refine Or.inl ⟨_, rfl, .someArguments first more, ⟨hadm, hadmm⟩,
      Nat.max_le.mpr ⟨hnest, hnestm⟩, rfl, ?_⟩
    rw [Derivation.tokens, List.append_assoc]
  · next hparen =>
    obtain ⟨⟨e, ts₁⟩, hitem, h₁⟩ := bind_eq_ok h
    obtain ⟨rfl, rfl⟩ := Prod.mk.inj (Except.ok.inj h₁)
    obtain ⟨hderives, hstops⟩ := hr.factor hitem
    refine Or.inr ⟨?_, hstops, _, rfl, hderives⟩
    intro hhead
    cases ts with
    | nil => exact absurd hhead (by rintro ⟨⟩)
    | cons t ts =>
      obtain rfl := Option.some.inj hhead
      exact hparen ts rfl

/-- An atom. One that is not closed leaves no `^` in front, since its argument took it. -/
theorem atom (hr : r.Sound library n) (h : Grammar.atom library r ts = .ok (e, rest)) :
    ∃ d : Derivation .atom, d.Admissible library ∧ d.nesting ≤ n ∧ d.meaning = e ∧
      ts = d.tokens ++ rest ∧ (d.isClosed = false → Symbol.factor.Stops rest) := by
  unfold Grammar.atom at h
  split at h
  · exact absurd h (by rintro ⟨⟩)
  · next text ts =>
    obtain ⟨rfl, rfl⟩ := Prod.mk.inj (Except.ok.inj h)
    exact ⟨.numeral text, trivial, Nat.zero_le _, rfl, rfl, by rintro ⟨⟩⟩
  · next text ts =>
    split at h
    · next hfunction =>
      -- A call is closed if its arguments stand in parentheses, and open otherwise.
      obtain ⟨⟨es, ts₁⟩, hargs, h₁⟩ := bind_eq_ok h
      obtain ⟨rfl, rfl⟩ := Prod.mk.inj (Except.ok.inj h₁)
      rcases hr.arguments hargs with ⟨ts', rfl, args, hadm, hnest, rfl, rfl⟩ |
        ⟨hparen, hstops, _, rfl, operand, hadm, hnest, rfl, rfl⟩
      · refine ⟨.call text args, ⟨hfunction, hadm⟩, hnest, rfl, ?_, by rintro ⟨⟩⟩
        rw [Derivation.tokens, List.cons_append, List.cons_append, List.append_assoc]
        rfl
      · refine ⟨.command text operand, ⟨hfunction, ?_, hadm⟩, hnest, rfl, rfl, fun _ => hstops⟩
        obtain ⟨t, us, hoperand, -⟩ := operand.factor_head
        rw [hoperand] at hparen ⊢
        exact hparen
    · next hname =>
      obtain ⟨rfl, rfl⟩ := Prod.mk.inj (Except.ok.inj h)
      exact ⟨.name text, Bool.eq_false_iff.mpr hname, Nat.zero_le _, rfl, rfl, by rintro ⟨⟩⟩
  · split at h
    · next hparen =>
      subst hparen
      obtain ⟨⟨e', ts₁⟩, hitem, h₁⟩ := bind_eq_ok h
      obtain ⟨⟨⟨⟩, ts₂⟩, hclose, h₂⟩ := bind_eq_ok h₁
      obtain ⟨rfl, rfl⟩ := Prod.mk.inj (Except.ok.inj h₂)
      obtain ⟨inner, hadm, hnest, rfl, rfl⟩ := hr.expression hitem
      obtain rfl := eq_of_closing hclose
      refine ⟨.group inner, hadm, hnest, rfl, ?_, by rintro ⟨⟩⟩
      rw [Derivation.tokens, List.cons_append, List.append_assoc]
      rfl
    · exact absurd h (by rintro ⟨⟩)

/-- A power, or an atom by itself. In front of a `^` the base is closed: had it been open, its
argument would have taken the `^`. -/
theorem power (hr : r.Sound library n) (h : Grammar.power library r ts = .ok (e, rest)) :
    Derives library (n + 1) .factor ts e rest ∧ Symbol.factor.Stops rest := by
  obtain ⟨⟨base', ts₁⟩, hatom, h₁⟩ := bind_eq_ok h
  obtain ⟨base, hadm, hnest, rfl, rfl, hopen⟩ := hr.atom hatom
  dsimp only at h₁
  split at h₁
  · obtain ⟨⟨exponent', ts₂⟩, hitem, h₂⟩ := bind_eq_ok h₁
    obtain ⟨rfl, rfl⟩ := Prod.mk.inj (Except.ok.inj h₂)
    obtain ⟨⟨exponent, hadme, hneste, rfl, rfl⟩, hstops⟩ := hr.factor hitem
    -- An open base has left no `^` in front, but here is one.
    have hclosed : base.isClosed = true := by
      rcases Bool.eq_false_or_eq_true base.isClosed with hclosed | hopened
      · exact hclosed
      · exact absurd (hopen hopened).head (by decide)
    refine ⟨⟨.power base exponent, ⟨hclosed, hadm, hadme⟩,
      Nat.succ_le_succ (Nat.max_le.mpr ⟨hnest, hneste⟩), rfl, ?_⟩, hstops⟩
    rw [Derivation.tokens, List.append_assoc]
    rfl
  · next hcaret =>
    obtain ⟨rfl, rfl⟩ := Prod.mk.inj (Except.ok.inj h₁)
    exact ⟨⟨.single base, hadm, Nat.succ_le_succ hnest, rfl, rfl⟩, stops_factor hcaret⟩

/-- A factor opens a rule, so its derivation nests one deeper than those of its parts. -/
theorem factor_succ (hr : r.Sound library n) (h : Grammar.factor library r ts = .ok (e, rest)) :
    Derives library (n + 1) .factor ts e rest ∧ Symbol.factor.Stops rest := by
  unfold Grammar.factor at h
  split at h
  · obtain ⟨⟨operand', ts₁⟩, hitem, h₁⟩ := bind_eq_ok h
    obtain ⟨rfl, rfl⟩ := Prod.mk.inj (Except.ok.inj h₁)
    obtain ⟨⟨operand, hadm, hnest, rfl, rfl⟩, hstops⟩ := hr.factor hitem
    exact ⟨⟨.signed .negate operand, hadm, Nat.succ_le_succ hnest, rfl, rfl⟩, hstops⟩
  · obtain ⟨⟨operand', ts₁⟩, hitem, h₁⟩ := bind_eq_ok h
    obtain ⟨rfl, rfl⟩ := Prod.mk.inj (Except.ok.inj h₁)
    obtain ⟨⟨operand, hadm, hnest, rfl, rfl⟩, hstops⟩ := hr.factor hitem
    exact ⟨⟨.signed .keep operand, hadm, Nat.succ_le_succ hnest, rfl, rfl⟩, hstops⟩
  · exact hr.power h

/-- So does an expression. Only a sum that an `=` follows is the target of an assignment. -/
theorem expression_succ (hr : r.Sound library n) (h : Grammar.expression r ts = .ok (e, rest)) :
    Derives library (n + 1) .expression ts e rest := by
  obtain ⟨⟨left', ts₁⟩, hsum, h₁⟩ := bind_eq_ok h
  obtain ⟨left, hadm, hnest, rfl, rfl⟩ := hr.sum hsum
  dsimp only at h₁
  split at h₁
  · obtain ⟨⟨right', ts₂⟩, hitem, h₂⟩ := bind_eq_ok h₁
    obtain ⟨rfl, rfl⟩ := Prod.mk.inj (Except.ok.inj h₂)
    obtain ⟨right, hadmr, hnestr, rfl, rfl⟩ := hr.expression hitem
    refine ⟨.assignment left right, ⟨hadm, hadmr⟩,
      Nat.succ_le_succ (Nat.max_le.mpr ⟨hnest, hnestr⟩), rfl, ?_⟩
    rw [Derivation.tokens, List.append_assoc]
    rfl
  · obtain ⟨rfl, rfl⟩ := Prod.mk.inj (Except.ok.inj h₁)
    exact ⟨.value left, hadm, Nat.succ_le_succ hnest, rfl, rfl⟩

end Rules.Sound

/-- Whatever the rules read is derived. -/
theorem rules_sound (library : Library) (n : Nat) : (rules library n).Sound library n := by
  -- On how many rules may be open. Where none may, nothing is read.
  induction n with
  | zero => exact ⟨fun h => absurd h (by rintro ⟨⟩), fun h => absurd h (by rintro ⟨⟩)⟩
  | succ n ih => exact ⟨ih.expression_succ, ih.factor_succ⟩

end Reckoner.Grammar
