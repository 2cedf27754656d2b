/-
Powers nest to the right, and are built by the rule for powers alone.

A factor goes on for as long as a `^` stands behind what can be a base: behind an atom the rule for
powers takes it, and behind a call without parentheses the factor that is its argument does. So no `^`
is left behind a factor, and the loop of a product, which would multiply as tightly with a `^` as with
a `*` and nest to the left, has none to go on with. A power in what is read is then a use of the rule
for powers: an atom, a `^` and one factor.

A power may occur in an expression more than once, and so may a rule in a derivation. Both are listed
in the order in which they are read, and the lists are the same. Where a use of the rule stands in the
tokens, the rule reads there what the derivation has: it depends on the tokens behind it only by the
next one, and what stands behind a phrase inside a derivation is known from the rule around it.
-/
import Reckoner.Proofs.Grammar.Acceptance
import Reckoner.Proofs.Grammar.Progress

set_option autoImplicit false

namespace Reckoner

/-! ## Powers in an expression -/

namespace Expr

mutual

/-- The base and the exponent of each power in an expression. -/
def powers : Expr → List (Expr × Expr)
  | .numeral _ => []
  | .name _ => []
  | .unary _ operand => operand.powers
  | .binary op left right =>
    if op = .pow then (left, right) :: (left.powers ++ right.powers)
    else left.powers ++ right.powers
  | .call _ arguments => argumentsPowers arguments
  | .assign target value => target.powers ++ value.powers

/-- The powers in the arguments of a call. -/
def argumentsPowers : List Expr → List (Expr × Expr)
  | [] => []
  | e :: es => e.powers ++ argumentsPowers es

end

variable {left right : Expr}

theorem powers_pow :
    (Expr.binary .pow left right).powers = (left, right) :: (left.powers ++ right.powers) := by
  rw [powers, if_pos rfl]

theorem powers_binary {op : BinaryOp} (h : op ≠ .pow) :
    (Expr.binary op left right).powers = left.powers ++ right.powers := by
  rw [powers, if_neg h]

end Expr

namespace Grammar

/-! ## Uses of the rule for powers -/

/-- The base and the exponent at each use of the rule for powers. -/
def Derivation.powers :
    {s : Symbol} → Derivation s → List (Derivation .atom × Derivation .factor)
  | _, .value operand => operand.powers
  | _, .assignment target right => target.powers ++ right.powers
  | _, .sum first steps => first.powers ++ steps.powers
  | _, .sumEnd => []
  | _, .sumStep _ _ operand steps => operand.powers ++ steps.powers
  | _, .product first steps => first.powers ++ steps.powers
  | _, .productEnd => []
  | _, .productStep _ _ operand steps => operand.powers ++ steps.powers
  | _, .juxtaposed operand steps => operand.powers ++ steps.powers
  | _, .signed _ operand => operand.powers
  | _, .single base => base.powers
  | _, .power base exponent => (base, exponent) :: (base.powers ++ exponent.powers)
  | _, .numeral _ => []
  | _, .name _ => []
  | _, .group e => e.powers
  | _, .call _ args => args.powers
  | _, .command _ operand => operand.powers
  | _, .noArguments => []
  | _, .someArguments first rest => first.powers ++ rest.powers
  | _, .argumentsEnd => []
  | _, .argument e rest => e.powers ++ rest.powers

/-- What the base and the exponent mean. -/
def powerMeaning (p : Derivation .atom × Derivation .factor) : Expr × Expr :=
  (p.1.meaning, p.2.meaning)

/-! ### Their meaning -/

/-- What means these powers. The steps of a chain mean them besides those of the operand to their
left. -/
def Symbol.MeaningPowers (ps : List (Expr × Expr)) : (s : Symbol) → s.Meaning → Prop
  | .expression, e | .sum, e | .product, e | .factor, e | .atom, e => e.powers = ps
  | .sumSteps, f | .productSteps, f => ∀ left, (f left).powers = left.powers ++ ps
  | .arguments, es | .moreArguments, es => Expr.argumentsPowers es = ps

/-- One more operand in front of the steps, if it is not an exponent. -/
theorem powers_step {op : BinaryOp} {right : Expr} {steps : Expr → Expr} {ps qs : List (Expr × Expr)}
    (hop : op ≠ .pow) (hr : right.powers = ps) (h : ∀ left, (steps left).powers = left.powers ++ qs)
    (left : Expr) : (steps (.binary op left right)).powers = left.powers ++ (ps ++ qs) := by
  rw [h, Expr.powers_binary hop, hr, List.append_assoc]

/-- The powers that are meant are the uses of the rule for powers, one for each. -/
theorem Derivation.meaning_powers {library : Library} {s : Symbol} (d : Derivation s)
    (hd : d.Admissible library) : s.MeaningPowers (d.powers.map powerMeaning) d.meaning := by
  -- A chain would mean a power of its own only at a step with a `^`, which is not admissible.
  induction d with
  | value operand ih => exact ih hd
  | assignment target right iht ihr =>
    show _ ++ _ = _
    rw [iht hd.1, ihr hd.2, Derivation.powers, List.map_append]
  | sum first steps ihf ihs | product first steps ihf ihs =>
    show (steps.meaning first.meaning).powers = _
    rw [ihs hd.2, ihf hd.1, Derivation.powers, List.map_append]
  | sumEnd | productEnd => exact fun left => (List.append_nil _).symm
  | sumStep op hop operand steps iho ihs =>
    have hne : op ≠ .pow := by
      rcases hop with rfl | rfl
      · decide
      · decide
    rw [Derivation.powers, List.map_append]
    exact powers_step hne (iho hd.1) (ihs hd.2)
  | productStep op hop operand steps iho ihs =>
    rw [Derivation.powers, List.map_append]
    exact powers_step hd.1 (iho hd.2.1) (ihs hd.2.2)
  | juxtaposed operand steps iho ihs =>
    rw [Derivation.powers, List.map_append]
    exact powers_step (by decide) (iho hd.2.1) (ihs hd.2.2)
  | signed op operand ih => exact ih hd
  | single base ih => exact ih hd
  | power base exponent ihb ihe =>
    show (Expr.binary .pow base.meaning exponent.meaning).powers = _
    rw [Expr.powers_pow, ihb hd.2.1, ihe hd.2.2, Derivation.powers, List.map_cons, List.map_append]
    rfl
  | numeral text | name text | noArguments | argumentsEnd => rfl
  | group e ih => exact ih hd
  | call function args ih => exact ih hd.2
  | command function operand ih => exact (List.append_nil _).trans (ih hd.2.2)
  | someArguments first rest ihf ihr | argument first rest ihf ihr =>
    show _ ++ _ = _
    rw [ihf hd.1, ihr hd.2, Derivation.powers, List.map_append]

/-! ### Their place in the tokens -/

/-- How a power is read in front of `after`. Its base is an atom that ends before the `^` whatever
stands there, its exponent is one factor, and no other `^` stands behind it. -/
structure ReadsPower (library : Library) (room : Nat) (base : Derivation .atom)
    (exponent : Derivation .factor) (after : List Token) : Prop where
  closed : base.isClosed = true
  atom : Grammar.atom library (rules library room)
      (base.tokens ++ .op '^' :: (exponent.tokens ++ after)) =
    .ok (base.meaning, .op '^' :: (exponent.tokens ++ after))
  factor : (rules library room).factor (exponent.tokens ++ after) = .ok (exponent.meaning, after)
  power : Grammar.power library (rules library room)
      (base.tokens ++ .op '^' :: (exponent.tokens ++ after)) =
    .ok (.binary .pow base.meaning exponent.meaning, after)
  noPower : after.head? ≠ some (.op '^')

/-- A place in these tokens where a power is read, by a rule inside of those for which there is room. -/
def HasPower (library : Library) (room : Nat) (ts : List Token)
    (p : Derivation .atom × Derivation .factor) : Prop :=
  ∃ before after inside, inside < room ∧
    ts = before ++ (p.1.tokens ++ .op '^' :: (p.2.tokens ++ after)) ∧
    ReadsPower library inside p.1 p.2 after

namespace HasPower

variable {library : Library} {n m : Nat} {ts rest : List Token}
  {p : Derivation .atom × Derivation .factor}

theorem behind (front : List Token) (h : HasPower library n ts p) :
    HasPower library n (front ++ ts) p := by
  obtain ⟨before, after, inside, hinside, rfl, hreads⟩ := h
  exact ⟨front ++ before, after, inside, hinside, (List.append_assoc _ _ _).symm, hreads⟩

theorem mono (h : HasPower library n ts p) (hle : n ≤ m) : HasPower library m ts p := by
  obtain ⟨before, after, inside, hinside, hts, hreads⟩ := h
  exact ⟨before, after, inside, Nat.lt_of_lt_of_le hinside hle, hts, hreads⟩

/-- The rule for powers itself. -/
theorem power {base : Derivation .atom} {exponent : Derivation .factor}
    (hd : (Derivation.power base exponent).Admissible library)
    (hn : (Derivation.power base exponent).nesting ≤ n) (hrest : Symbol.factor.Stops rest) :
    HasPower library n ((Derivation.power base exponent).tokens ++ rest) (base, exponent) := by
  -- The factor that the power is takes the room of one rule from its base and its exponent.
  obtain ⟨hroom, hnbase, hnexponent⟩ :
      n - 1 < n ∧ base.nesting ≤ n - 1 ∧ exponent.nesting ≤ n - 1 := by
    rw [Derivation.nesting] at hn
    omega
  have hcomplete := rules_complete library (n - 1)
  refine ⟨[], rest, n - 1, hroom, List.append_assoc _ _ _, hd.1, ?_, ?_, ?_, ?_⟩
  · exact hcomplete.atom hd.2.1 hnbase (Derivation.stops_of_isClosed hd.1)
  · exact hcomplete.factor hd.2.2 hnexponent hrest
  · exact hcomplete.power_raised hd hnbase hnexponent hrest
  · exact fun hhead => absurd (hrest _ hhead) (by decide)

end HasPower

/-- Where this derivation is that of a phrase, each of its powers has a place in the tokens. -/
def PowersStand (library : Library) {s : Symbol} (d : Derivation s) : Prop :=
  d.Admissible library → ∀ {n : Nat} {rest : List Token}, d.nesting ≤ n →
    (d.isClosed = false → s.Stops rest) → ∀ p ∈ d.powers, HasPower library n (d.tokens ++ rest) p

/-- Two phrases, the second one behind a separator. -/
theorem PowersStand.sequence {library : Library} {n : Nat} {rest : List Token} {s s' : Symbol}
    {d : Derivation s} {d' : Derivation s'} (ih : PowersStand library d)
    (ih' : PowersStand library d') (hd : d.Admissible library) (hd' : d'.Admissible library)
    (hn : max d.nesting d'.nesting ≤ n) (separator : List Token)
    (hstops : s.Stops (separator ++ (d'.tokens ++ rest))) (hrest : s'.Stops rest) :
    ∀ p ∈ d.powers ++ d'.powers,
      HasPower library n (d.tokens ++ (separator ++ (d'.tokens ++ rest))) p := by
  obtain ⟨hnfirst, hnsecond⟩ := Nat.max_le.mp hn
  intro p hp
  rcases List.mem_append.mp hp with hp | hp
  · exact ih hd hnfirst (fun _ => hstops) p hp
  · exact ((ih' hd' hnsecond (fun _ => hrest) p hp).behind separator).behind d.tokens

theorem Derivation.powers_stand (library : Library) {s : Symbol} (d : Derivation s) :
    PowersStand library d := by
  -- Each rule says what stands behind its parts, so that the parts stop there.
  induction d with
  | value operand ih =>
    intro hd n rest hn hr p hp
    exact ih hd (Nat.le_of_succ_le hn) (fun _ => (hr rfl).mono (by decide)) p hp
  | assignment target right iht ihr =>
    intro hd n rest hn hr p hp
    rw [tokens, List.append_assoc]
    exact iht.sequence ihr hd.1 hd.2 (Nat.le_of_succ_le hn) [.op '='] (.cons (by decide) _) (hr rfl)
      p hp
  | sum first steps ihf ihs =>
    intro hd n rest hn hr p hp
    rw [tokens, List.append_assoc]
    exact ihf.sequence ihs hd.1 hd.2 hn [] (steps.stops_sumSteps (hr rfl)) (hr rfl) p hp
  | product first steps ihf ihs =>
    intro hd n rest hn hr p hp
    rw [tokens, List.append_assoc]
    exact ihf.sequence ihs hd.1 hd.2 hn [] (steps.stops_productSteps hd.2 (hr rfl)) (hr rfl) p hp
  | sumStep op hop operand steps iho ihs =>
    intro hd n rest hn hr p hp
    rw [tokens, List.cons_append, List.append_assoc]
    exact (iho.sequence ihs hd.1 hd.2 hn [] (steps.stops_sumSteps (hr rfl)) (hr rfl)
      p hp).behind [op.token]
  | productStep op hop operand steps iho ihs =>
    intro hd n rest hn hr p hp
    rw [tokens, List.cons_append, List.append_assoc]
    exact (iho.sequence ihs hd.2.1 hd.2.2 hn [] (steps.stops_productSteps hd.2.2 (hr rfl)) (hr rfl)
      p hp).behind [op.token]
  | juxtaposed operand steps iho ihs =>
    intro hd n rest hn hr p hp
    rw [tokens, List.append_assoc]
    exact iho.sequence ihs hd.2.1 hd.2.2 hn [] (steps.stops_productSteps hd.2.2 (hr rfl)) (hr rfl)
      p hp
  | signed op operand ih =>
    intro hd n rest hn hr p hp
    exact (ih hd (Nat.le_of_succ_le hn) (fun _ => hr rfl) p hp).behind [op.token]
  | single base ih =>
    intro hd n rest hn hr p hp
    exact ih hd (Nat.le_of_succ_le hn) (fun _ => (hr rfl).mono (by decide)) p hp
  | power base exponent ihb ihe =>
    intro hd n rest hn hr p hp
    rcases List.mem_cons.mp hp with rfl | hp
    · exact .power hd hn (hr rfl)
    · obtain ⟨hnbase, hnexponent⟩ := Nat.max_le.mp (Nat.le_of_succ_le hn)
      rw [tokens, List.append_assoc]
      rcases List.mem_append.mp hp with hp | hp
      · -- The base ends by itself, so nothing has to be known of the `^` behind it.
        exact ihb hd.2.1 hnbase (stops_of_isClosed hd.1) p hp
      · have hexponent := ihe hd.2.2 hnexponent (fun _ => hr rfl) p hp
        exact (hexponent.behind [.op '^']).behind base.tokens
  | group e ih =>
    intro hd n rest hn hr p hp
    rw [tokens, List.cons_append, List.append_assoc]
    exact (ih hd hn (fun _ => .cons (by decide) _) p hp).behind [.op '(']
  | call function args ih =>
    intro hd n rest hn hr p hp
    rw [tokens, List.cons_append, List.cons_append, List.append_assoc]
    exact (ih hd.2 hn (fun _ => .cons (by decide) _) p hp).behind [.word function, .op '(']
  | command function operand ih =>
    intro hd n rest hn hr p hp
    exact (ih hd.2.2 hn (fun _ => (hr rfl).mono (by decide)) p hp).behind [.word function]
  | someArguments first more ihf ihm =>
    intro hd n rest hn hr p hp
    have hmore : Symbol.moreArguments.Stops rest := (hr rfl).mono (by decide)
    rw [tokens, List.append_assoc]
    exact ihf.sequence ihm hd.1 hd.2 hn [] (more.stops_moreArguments hmore) hmore p hp
  | argument e more ihe ihm =>
    intro hd n rest hn hr p hp
    rw [tokens, List.cons_append, List.append_assoc]
    exact (ihe.sequence ihm hd.1 hd.2 hn [] (more.stops_moreArguments (hr rfl)) (hr rfl)
      p hp).behind [.op ',']
  | sumEnd | productEnd | numeral text | name text | noArguments | argumentsEnd =>
    intro hd n rest hn hr p hp
    exact absurd hp List.not_mem_nil

/-! ## The link of a product -/

section Link

variable {library : Library} {n : Nat} {link? : List Token → Option (BinaryOp × List Token)}

/-- Where a round begins there is no `^`, and none is left behind its factor. -/
theorem chain_eq_of_link (hlink : ∀ ts, ts.head? ≠ some (.op '^') → link? ts = productLink? ts)
    (fuel : Nat) (left : Expr) {ts : List Token} (hts : ts.head? ≠ some (.op '^')) :
    chain (rules library n).factor link? fuel left ts =
      chain (rules library n).factor productLink? fuel left ts := by
  induction fuel generalizing left ts with
  | zero => rfl
  | succ fuel ih =>
    unfold chain
    rw [hlink ts hts]
    cases productLink? ts with
    | none => rfl
    | some link =>
      obtain ⟨op, linked⟩ := link
      dsimp only
      cases hread : (rules library n).factor linked with
      | error fault => rfl
      | ok read => exact ih _ (head?_ne_power hread)

/-- Whatever the loop of a product did at a `^`, products would be read as they are. -/
theorem product_eq_of_link
    (hlink : ∀ ts, ts.head? ≠ some (.op '^') → link? ts = productLink? ts) :
    chained (rules library n).factor link? = product (rules library n) := by
  funext ts
  unfold product chained
  cases hread : (rules library n).factor ts with
  | error fault => rfl
  | ok read => exact chain_eq_of_link hlink _ _ (head?_ne_power hread)

end Link

/-! ## The whole -/

/-- **Powers are built by the rule for powers alone.** No `^` is left behind a factor. So it makes no
difference what the loop of a product does at a `^`: in all that the reader does, from wherever it
begins and whether it meets a fault or not, no round of the loop finds one. In what is read, the powers
are the uses of the rule for powers in the derivation, one for each. At its place in the tokens this
rule reads an atom as the base, which is a numeral, a name, an expression in parentheses or a call with
its arguments in parentheses, and one factor as the exponent. -/
theorem powers_built_by_power (library : Library) (tokens : List Token) :
    (∀ n ts e rest, (rules library n).factor ts = .ok (e, rest) → rest.head? ≠ some (.op '^')) ∧
      (∀ n link?, (∀ ts, ts.head? ≠ some (.op '^') → link? ts = productLink? ts) →
        chained (rules library n).factor link? = product (rules library n)) ∧
      (∀ (rule : Rule) (position depth clock : Nat), 8 * (tokens.length + 1) ≤ clock →
        ∃ outcome after,
          ((Task.rule rule).perform library tokens clock).run ⟨position, depth, []⟩ =
              some (outcome, after) ∧
            rule.phrase library (rules library (maxNesting - depth)) (tokens.drop position) =
              outcome.map (fun e => (e, tokens.drop after.position)) ∧
            ∀ number start here, .round (.chain .product) number start here ∈ after.events →
              tokens[here]? ≠ some (.op '^')) ∧
      ∀ e, Expr.ofTokens library tokens = .ok e →
        ∃ d : Derivation .expression, d.Accepts library tokens ∧ d.meaning = e ∧
          e.powers = d.powers.map powerMeaning ∧
          ∀ p ∈ d.powers, HasPower library maxNesting tokens p := by
  refine ⟨fun n ts e rest => head?_ne_power, fun n link? => product_eq_of_link,
    fun rule position depth clock hclock => ?_, fun e he => ?_⟩
  · obtain ⟨outcome, after, hrun, hreads⟩ :=
      rule_ends library tokens hclock rule ⟨position, depth, []⟩
    obtain ⟨new, rfl, horderly⟩ := hreads.happens
    refine ⟨outcome, after, hrun, hreads.agrees, fun number start here hround => ?_⟩
    rw [← List.head?_drop]
    exact (horderly.rounds _ number start here hround).noPower rfl
  · obtain ⟨d, hd, rfl⟩ := Expr.derivation_of_ofTokens he
    have hstand := d.powers_stand library hd.admissible hd.nesting fun _ => .nil .expression
    rw [List.append_nil, hd.tokens] at hstand
    exact ⟨d, hd, rfl, d.meaning_powers hd.admissible, hstand⟩

/-- A `^` behind an exponent belongs to the exponent, and one behind a call without parentheses to the
argument. -/
example :
    Expr.ofTokens .standard [.numeral "2", .op '^', .word "sin", .word "x", .op '^', .op '-',
        .word "y", .op '^', .numeral "3"] =
      .ok (.binary .pow (.numeral "2") (.call "sin" [.binary .pow (.name "x")
        (.unary .negate (.binary .pow (.name "y") (.numeral "3")))])) := by
  rfl

end Grammar
end Reckoner
