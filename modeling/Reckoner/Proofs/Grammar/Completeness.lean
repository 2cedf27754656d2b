/-
Whatever the rules of the grammar derive is read.

Behind the tokens of an admissible derivation there may be others, as long as the phrase stops
before them. The reading then takes the tokens of the derivation, neither less nor more, and
returns what they mean. It needs as many open rules as the derivation has nested, and a loop needs
no more rounds than there are tokens, since each step of a chain and each further argument has a
token of its own.
-/
import Reckoner.Proofs.Grammar.Unambiguous

set_option autoImplicit false

namespace Reckoner.Grammar

/-- The two rules read whatever is derived with at most `n` rules open at once. -/
structure Rules.Complete (library : Library) (n : Nat) (r : Rules) : Prop where
  expression : ∀ {d : Derivation .expression} {rest : List Token}, d.Admissible library →
    d.nesting ≤ n → Symbol.expression.Stops rest →
      r.expression (d.tokens ++ rest) = .ok (d.meaning, rest)
  factor : ∀ {d : Derivation .factor} {rest : List Token}, d.Admissible library →
    d.nesting ≤ n → Symbol.factor.Stops rest → r.factor (d.tokens ++ rest) = .ok (d.meaning, rest)

/-! ## Links of chains -/

/-- An operator of sums is a link to the next product, and is taken. -/
theorem sumLink?_token {op : BinaryOp} (hop : op = .add ∨ op = .sub) (ts : List Token) :
    sumLink? (op.token :: ts) = some (op, ts) := by
  rcases hop with rfl | rfl
  · rfl
  · rfl

/-- Before a token that does not go on with a sum, the chain of its products ends. -/
theorem sumLink?_eq_none {rest : List Token} (h : Symbol.sum.Stops rest) :
    sumLink? rest = none := by
  unfold sumLink?
  split
  · exact absurd h.head (by decide)
  · exact absurd h.head (by decide)
  · rfl

/-- An operator of products is a link to the next factor, and is taken. So is a `^`, although no
admissible derivation has a step with one. -/
theorem productLink?_token {op : BinaryOp}
    (hop : op = .mul ∨ op = .div ∨ op = .rem ∨ op = .pow) (ts : List Token) :
    productLink? (op.token :: ts) = some (op, ts) := by
  rcases hop with rfl | rfl | rfl | rfl
  · rfl
  · rfl
  · rfl
  · rfl

/-- What begins an atom is a link by its place alone. It is not taken, since the factor begins with
it. -/
theorem productLink?_opensAtom {t : Token} (h : t.opensAtom) (ts : List Token) :
    productLink? (t :: ts) = some (.mul, t :: ts) := by
  cases t with
  | numeral text => rfl
  | word text => rfl
  | op c => rw [eq_of_beq h]; rfl

/-- Before a token that does not go on with a product, the chain of its factors ends: each case in
which there is a link is one in which the token goes on. -/
theorem productLink?_eq_none {rest : List Token} (h : Symbol.product.Stops rest) :
    productLink? rest = none := by
  unfold productLink?
  split
  · exact absurd h.head (by decide)
  · exact absurd h.head (by decide)
  · exact absurd h.head (by decide)
  · exact absurd h.head (by decide)
  · exact absurd h.head (by decide)
  · exact absurd h.head Bool.noConfusion
  · exact absurd h.head Bool.noConfusion
  · rfl

/-! ## Branches of the rules -/

/-- Without a parenthesis in front, the argument is a single factor. -/
theorem arguments_of_head_ne {r : Rules} {ts : List Token} (h : ts.head? ≠ some (.op '(')) :
    arguments r ts = (do let (e, rest) ← r.factor ts; .ok ([e], rest)) := by
  unfold arguments
  split
  · exact absurd rfl h
  · exact absurd rfl h
  · rfl

/-- Behind what does not close them, the arguments have a first one. -/
theorem arguments_of_ne {r : Rules} {t : Token} (h : t ≠ .op ')') (ts : List Token) :
    arguments r (.op '(' :: t :: ts) = (do
      let (e, rest) ← r.expression (t :: ts)
      let (es, rest) ← moreArguments r rest.length rest
      let ((), rest) ← closing rest
      .ok (e :: es, rest)) := by
  unfold arguments
  split
  · next heq => exact absurd (List.cons.inj (List.cons.inj heq).2).1 h
  · next heq => rw [(List.cons.inj heq).2]
  · next hparen => exact absurd rfl (hparen _)

/-- Behind a sign there is a factor again. -/
theorem factor_sign (library : Library) (r : Rules) (op : UnaryOp) (ts : List Token) :
    factor library r (op.token :: ts) =
      (do let (e, rest) ← r.factor ts; .ok (.unary op e, rest)) := by
  cases op with
  | negate => rfl
  | keep => rfl

/-- Without a sign, a factor is a power. -/
theorem factor_of_ne {library : Library} {r : Rules} {t : Token} (h : ¬∃ op : UnaryOp, t = op.token)
    (ts : List Token) : factor library r (t :: ts) = power library r (t :: ts) := by
  unfold factor
  split
  · next heq => exact absurd ⟨.negate, (List.cons.inj heq).1⟩ h
  · next heq => exact absurd ⟨.keep, (List.cons.inj heq).1⟩ h
  · rfl

/-- What begins an atom has no sign. -/
theorem factor_of_opensAtom {library : Library} {r : Rules} {t : Token} (h : t.opensAtom)
    (ts : List Token) : factor library r (t :: ts) = power library r (t :: ts) := by
  refine factor_of_ne ?_ ts
  rintro ⟨op, rfl⟩
  exact absurd (h.symm.trans (opensAtom_sign_token op)) Bool.noConfusion

/-! ## The rules, given those inside -/

namespace Rules.Complete

variable {library : Library} {n : Nat} {r : Rules} {rest : List Token}

/-- The steps of a product are read, one in each round. Behind an operand there is the next step or
the end of the product, and a factor stops before either. -/
theorem productSteps (hr : r.Complete library n) {fuel : Nat} {d : Derivation .productSteps}
    (hd : d.Admissible library) (hn : d.nesting ≤ n) (hrest : Symbol.product.Stops rest)
    (hfuel : d.tokens.length ≤ fuel) (left : Expr) :
    chain r.factor productLink? fuel left (d.tokens ++ rest) = .ok (d.meaning left, rest) := by
  -- On the fuel, as the reader recurses on it. Each step has a token, so it never runs out.
  induction fuel generalizing d left with
  | zero =>
    cases d with
    | productEnd => rfl
    | productStep op hop operand steps => exact absurd hfuel (Nat.not_succ_le_zero _)
    | juxtaposed operand steps =>
      obtain ⟨t, ts, htokens, -⟩ := operand.factor_head
      rw [Derivation.tokens, htokens] at hfuel
      exact absurd hfuel (Nat.not_succ_le_zero _)
  | succ fuel ih =>
    cases d with
    | productEnd =>
      unfold chain
      rw [Derivation.tokens, List.nil_append, productLink?_eq_none hrest]
      rfl
    | productStep op hop operand steps =>
      obtain ⟨-, hoperand, hsteps⟩ := hd
      obtain ⟨hnoperand, hnsteps⟩ := Nat.max_le.mp hn
      have hlength : steps.tokens.length ≤ fuel := by
        rw [Derivation.tokens, List.length_cons, List.length_append] at hfuel
        omega
      unfold chain
      rw [Derivation.tokens, List.cons_append, List.append_assoc, productLink?_token hop]
      dsimp only
      rw [hr.factor hoperand hnoperand (steps.stops_productSteps hsteps hrest)]
      exact ih hsteps hnsteps hlength _
    | juxtaposed operand steps =>
      obtain ⟨t, ts, htokens, hopens⟩ := Derivation.juxtaposed_head hd
      obtain ⟨-, hoperand, hsteps⟩ := hd
      obtain ⟨hnoperand, hnsteps⟩ := Nat.max_le.mp hn
      have hlength : steps.tokens.length ≤ fuel := by
        rw [Derivation.tokens, List.length_append, htokens, List.length_cons] at hfuel
        omega
      -- The first token of the operand is the link, and stays in front of the operand.
      have hlink : productLink? (operand.tokens ++ (steps.tokens ++ rest)) =
          some (.mul, operand.tokens ++ (steps.tokens ++ rest)) := by
        rw [htokens]
        exact productLink?_opensAtom hopens _
      unfold chain
      rw [Derivation.tokens, List.append_assoc, hlink]
      dsimp only
      rw [hr.factor hoperand hnoperand (steps.stops_productSteps hsteps hrest)]
      exact ih hsteps hnsteps hlength _

/-- A product is read: its first factor, which stops before the steps, and then these. The reader
allows as many rounds as there are tokens left, and so as many as there are steps. -/
theorem product (hr : r.Complete library n) {d : Derivation .product} (hd : d.Admissible library)
    (hn : d.nesting ≤ n) (hrest : Symbol.product.Stops rest) :
    Grammar.product r (d.tokens ++ rest) = .ok (d.meaning, rest) := by
  cases d with
  | product first steps =>
    obtain ⟨hnfirst, hnsteps⟩ := Nat.max_le.mp hn
    have hlength : steps.tokens.length ≤ (steps.tokens ++ rest).length :=
      (List.sublist_append_left _ _).length_le
    unfold Grammar.product chained
    rw [Derivation.tokens, List.append_assoc,
      hr.factor hd.1 hnfirst (steps.stops_productSteps hd.2 hrest)]
    exact hr.productSteps hd.2 hnsteps hrest hlength _

/-- The steps of a sum are read, one in each round. -/
theorem sumSteps (hr : r.Complete library n) {fuel : Nat} {d : Derivation .sumSteps}
    (hd : d.Admissible library) (hn : d.nesting ≤ n) (hrest : Symbol.sum.Stops rest)
    (hfuel : d.tokens.length ≤ fuel) (left : Expr) :
    chain (Grammar.product r) sumLink? fuel left (d.tokens ++ rest) =
      .ok (d.meaning left, rest) := by
  -- On the fuel, as for a product. Here every step has an operator.
  induction fuel generalizing d left with
  | zero =>
    cases d with
    | sumEnd => rfl
    | sumStep op hop operand steps => exact absurd hfuel (Nat.not_succ_le_zero _)
  | succ fuel ih =>
    cases d with
    | sumEnd =>
      unfold chain
      rw [Derivation.tokens, List.nil_append, sumLink?_eq_none hrest]
      rfl
    | sumStep op hop operand steps =>
      obtain ⟨hnoperand, hnsteps⟩ := Nat.max_le.mp hn
      have hlength : steps.tokens.length ≤ fuel := by
        rw [Derivation.tokens, List.length_cons, List.length_append] at hfuel
        omega
      unfold chain
      rw [Derivation.tokens, List.cons_append, List.append_assoc, sumLink?_token hop]
      dsimp only
      rw [hr.product hd.1 hnoperand (steps.stops_sumSteps hrest)]
      exact ih hd.2 hnsteps hlength _

/-- A sum is read: its first product, which stops before the steps, and then these. -/
theorem sum (hr : r.Complete library n) {d : Derivation .sum} (hd : d.Admissible library)
    (hn : d.nesting ≤ n) (hrest : Symbol.sum.Stops rest) :
    Grammar.sum r (d.tokens ++ rest) = .ok (d.meaning, rest) := by
  cases d with
  | sum first steps =>
    obtain ⟨hnfirst, hnsteps⟩ := Nat.max_le.mp hn
    have hlength : steps.tokens.length ≤ (steps.tokens ++ rest).length :=
      (List.sublist_append_left _ _).length_le
    unfold Grammar.sum chained
    rw [Derivation.tokens, List.append_assoc,
      hr.product hd.1 hnfirst (steps.stops_sumSteps hrest)]
    exact hr.sumSteps hd.2 hnsteps hrest hlength _

/-- Further arguments are read up to the parenthesis that closes the call. An argument needs no
condition on what is behind that parenthesis, since it stops before it. -/
theorem moreArguments (hr : r.Complete library n) {fuel : Nat} {d : Derivation .moreArguments}
    (hd : d.Admissible library) (hn : d.nesting ≤ n) (hfuel : d.tokens.length ≤ fuel) :
    Grammar.moreArguments r fuel (d.tokens ++ .op ')' :: rest) =
      .ok (d.meaning, .op ')' :: rest) := by
  -- On the fuel. Each further argument has a comma, so it never runs out either.
  induction fuel generalizing d with
  | zero =>
    cases d with
    | argumentsEnd => rfl
    | argument e more => exact absurd hfuel (Nat.not_succ_le_zero _)
  | succ fuel ih =>
    cases d with
    | argumentsEnd => rfl
    | argument e more =>
      obtain ⟨hne, hnmore⟩ := Nat.max_le.mp hn
      have hlength : more.tokens.length ≤ fuel := by
        rw [Derivation.tokens, List.length_cons, List.length_append] at hfuel
        omega
      have hstops : Symbol.expression.Stops (more.tokens ++ .op ')' :: rest) :=
        more.stops_moreArguments (.cons (by decide) _)
      rw [Derivation.tokens, List.cons_append, List.append_assoc, Grammar.moreArguments,
        hr.expression hd.1 hne hstops]
      dsimp only [bind, Except.bind]
      rw [ih hd.2 hnmore hlength]
      rfl

/-- The arguments of a call are read with the parenthesis that closes it. -/
theorem arguments (hr : r.Complete library n) {d : Derivation .arguments}
    (hd : d.Admissible library) (hn : d.nesting ≤ n) :
    Grammar.arguments r (.op '(' :: (d.tokens ++ .op ')' :: rest)) = .ok (d.meaning, rest) := by
  cases d with
  | noArguments => rfl
  | someArguments first more =>
    obtain ⟨hnfirst, hnmore⟩ := Nat.max_le.mp hn
    have hstops : Symbol.expression.Stops (more.tokens ++ .op ')' :: rest) :=
      more.stops_moreArguments (.cons (by decide) _)
    have hlength : more.tokens.length ≤ (more.tokens ++ .op ')' :: rest).length :=
      (List.sublist_append_left _ _).length_le
    -- The first argument does not begin with a parenthesis that would close the list.
    obtain ⟨t, ts, htokens, hopens⟩ := first.expression_head
    have hclose : t ≠ .op ')' := by
      rintro rfl
      exact absurd hopens (by decide)
    have hfirst := hr.expression hd.1 hnfirst hstops
    rw [htokens, List.cons_append] at hfirst
    rw [Derivation.tokens, List.append_assoc, htokens, List.cons_append,
      arguments_of_ne hclose, hfirst]
    dsimp only [bind, Except.bind]
    rw [hr.moreArguments hd.2 hnmore hlength]
    rfl

/-- An atom is read. If it is closed, anything may be behind it. The one kind that is open is a call
without parentheses, which ends with a factor and stops where this one does. -/
theorem atom (hr : r.Complete library n) {d : Derivation .atom} (hd : d.Admissible library)
    (hn : d.nesting ≤ n) (hrest : d.isClosed = false → Symbol.factor.Stops rest) :
    Grammar.atom library r (d.tokens ++ rest) = .ok (d.meaning, rest) := by
  cases d with
  | numeral text => rfl
  | name text =>
    have hname : ¬library.contains text = true := Bool.eq_false_iff.mp hd
    rw [Derivation.tokens, List.cons_append, Grammar.atom, if_neg hname]
    rfl
  | group e =>
    have he : e.Admissible library := hd
    rw [Derivation.tokens, List.cons_append, List.append_assoc, List.cons_append, List.nil_append,
      Grammar.atom, if_pos rfl, hr.expression he hn (.cons (by decide) _)]
    rfl
  | call function args =>
    have hfunction : library.contains function = true := hd.1
    rw [Derivation.tokens, List.cons_append, List.cons_append, List.append_assoc,
      List.cons_append, List.nil_append, Grammar.atom, if_pos hfunction, hr.arguments hd.2 hn]
    rfl
  | command function operand =>
    have hfunction : library.contains function = true := hd.1
    have hparen : (operand.tokens ++ rest).head? ≠ some (.op '(') := by
      obtain ⟨t, ts, htokens, -⟩ := operand.factor_head
      have hhead := hd.2.1
      rw [htokens] at hhead ⊢
      exact hhead
    rw [Derivation.tokens, List.cons_append, Grammar.atom, if_pos hfunction,
      arguments_of_head_ne hparen, hr.factor hd.2.2 hn (hrest rfl)]
    rfl

/-- An atom is a power by itself, if no `^` goes on with it. -/
theorem power_single (hr : r.Complete library n) {base : Derivation .atom}
    (hd : base.Admissible library) (hn : base.nesting ≤ n) (hrest : Symbol.factor.Stops rest) :
    Grammar.power library r (base.tokens ++ rest) = .ok (base.meaning, rest) := by
  unfold Grammar.power
  rw [hr.atom hd hn fun _ => hrest]
  dsimp only [bind, Except.bind]
  -- Whether there is a `^` behind the atom. A factor does not stop before one.
  split
  · exact absurd hrest.head (by decide)
  · rfl

/-- A base and its exponent are read as one power. The exponent is a factor, so a `^` behind it
would be its own. -/
theorem power_raised (hr : r.Complete library n) {base : Derivation .atom}
    {exponent : Derivation .factor} (hd : (Derivation.power base exponent).Admissible library)
    (hnbase : base.nesting ≤ n) (hnexponent : exponent.nesting ≤ n)
    (hrest : Symbol.factor.Stops rest) :
    Grammar.power library r (base.tokens ++ .op '^' :: (exponent.tokens ++ rest)) =
      .ok (.binary .pow base.meaning exponent.meaning, rest) := by
  obtain ⟨hclosed, hbase, hexponent⟩ := hd
  -- A `^` goes on with an open atom, but the base of a power is closed.
  have hatom : Grammar.atom library r (base.tokens ++ .op '^' :: (exponent.tokens ++ rest)) =
      .ok (base.meaning, .op '^' :: (exponent.tokens ++ rest)) :=
    hr.atom hbase hnbase (Derivation.stops_of_isClosed hclosed)
  unfold Grammar.power
  rw [hatom]
  show (do let (e, ts) ← r.factor (exponent.tokens ++ rest)
           .ok (Expr.binary .pow base.meaning e, ts)) = _
  rw [hr.factor hexponent hnexponent hrest]
  rfl

/-- A factor is read by rules that have one more level: the rule of factors is open itself while its
parts are read. -/
theorem factor_succ (hr : r.Complete library n) {d : Derivation .factor}
    (hd : d.Admissible library) (hn : d.nesting ≤ n + 1) (hrest : Symbol.factor.Stops rest) :
    Grammar.factor library r (d.tokens ++ rest) = .ok (d.meaning, rest) := by
  cases d with
  | signed op operand =>
    have hnoperand : operand.nesting ≤ n := Nat.le_of_succ_le_succ hn
    have hadm : operand.Admissible library := hd
    rw [Derivation.tokens, List.cons_append, factor_sign, hr.factor hadm hnoperand hrest]
    rfl
  | single base =>
    have hnbase : base.nesting ≤ n := Nat.le_of_succ_le_succ hn
    obtain ⟨t, ts, htokens, hopens⟩ := base.atom_head
    have hpower := hr.power_single hd hnbase hrest
    rw [htokens, List.cons_append] at hpower
    rw [Derivation.tokens, htokens, List.cons_append, factor_of_opensAtom hopens, hpower]
    rfl
  | power base exponent =>
    obtain ⟨hnbase, hnexponent⟩ := Nat.max_le.mp (Nat.le_of_succ_le_succ hn)
    obtain ⟨t, ts, htokens, hopens⟩ := base.atom_head
    have hpower := hr.power_raised hd hnbase hnexponent hrest
    rw [htokens, List.cons_append] at hpower
    rw [Derivation.tokens, List.append_assoc, List.cons_append, htokens, List.cons_append,
      factor_of_opensAtom hopens, hpower]
    rfl

/-- An expression is read by rules that have one more level, as a factor is. -/
theorem expression_succ (hr : r.Complete library n) {d : Derivation .expression}
    (hd : d.Admissible library) (hn : d.nesting ≤ n + 1)
    (hrest : Symbol.expression.Stops rest) :
    Grammar.expression r (d.tokens ++ rest) = .ok (d.meaning, rest) := by
  cases d with
  | value operand =>
    have hnoperand : operand.nesting ≤ n := Nat.le_of_succ_le_succ hn
    have hsum : Symbol.sum.Stops rest := hrest.mono (by decide)
    unfold Grammar.expression
    rw [Derivation.tokens, hr.sum hd hnoperand hsum]
    dsimp only [bind, Except.bind]
    -- Whether there is an `=` behind the value. An expression does not stop before one.
    split
    · exact absurd hrest.head (by decide)
    · rfl
  | assignment target right =>
    obtain ⟨hntarget, hnright⟩ := Nat.max_le.mp (Nat.le_of_succ_le_succ hn)
    unfold Grammar.expression
    -- The `=` goes on with an expression, but the target is a sum, which stops before it.
    rw [Derivation.tokens, List.append_assoc, List.cons_append,
      hr.sum hd.1 hntarget (.cons (by decide) _)]
    show (do let (e, ts) ← r.expression (right.tokens ++ rest)
             .ok (Expr.assign target.meaning e, ts)) = _
    rw [hr.expression hd.2 hnright hrest]
    rfl

end Rules.Complete

/-- The rules read whatever is derived, by induction on how many of them may be open. What is inside a
parenthesis, behind a sign or behind a `^` is nested less deeply than the whole. -/
theorem rules_complete (library : Library) (n : Nat) : (rules library n).Complete library n := by
  induction n with
  | zero =>
    -- A factor and an expression open a rule at once, so neither is derived without one.
    constructor
    · intro d rest hd hn
      cases d with
      | value operand => exact absurd hn (Nat.not_succ_le_zero _)
      | assignment target right => exact absurd hn (Nat.not_succ_le_zero _)
    · intro d rest hd hn
      cases d with
      | signed op operand => exact absurd hn (Nat.not_succ_le_zero _)
      | single base => exact absurd hn (Nat.not_succ_le_zero _)
      | power base exponent => exact absurd hn (Nat.not_succ_le_zero _)
  | succ n ih => exact ⟨ih.expression_succ, ih.factor_succ⟩

end Reckoner.Grammar
