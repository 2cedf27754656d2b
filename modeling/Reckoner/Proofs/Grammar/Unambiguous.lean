/-
The grammar is unambiguous: tokens have at most one admissible derivation.

The statement that carries the induction is about tokens with something behind them. A phrase stops
before some tokens if the first of these cannot go on with it. Two phrases of one symbol that stop,
and that together with what is behind them have the same tokens, are the same derivation, and the
same tokens are behind them. Which tokens go on with a phrase is a matter of its symbol alone,
except that an atom in parentheses, a numeral and a name stop before anything.
-/
import Reckoner.Proofs.Grammar.Derivation

set_option autoImplicit false

namespace Reckoner.Grammar

/-! ## The first token of a phrase -/

namespace Derivation

/-- No phrase is empty, so its first token can be looked at. That of an atom is a numeral, a word or
a parenthesis. -/
theorem atom_head (d : Derivation .atom) : ∃ t ts, d.tokens = t :: ts ∧ t.opensAtom := by
  cases d with
  | numeral text => exact ⟨_, _, rfl, rfl⟩
  | name text => exact ⟨_, _, rfl, rfl⟩
  | group e => exact ⟨_, _, rfl, rfl⟩
  | call function args => exact ⟨_, _, rfl, rfl⟩
  | command function operand => exact ⟨_, _, rfl, rfl⟩

/-- A factor begins with a sign, or as its atom does. -/
theorem factor_head (d : Derivation .factor) : ∃ t ts, d.tokens = t :: ts ∧ t.opensFactor := by
  cases d with
  | signed op operand => exact ⟨_, _, rfl, by cases op <;> rfl⟩
  | single base =>
    obtain ⟨t, ts, htokens, ht⟩ := base.atom_head
    exact ⟨t, ts, htokens, by rw [Token.opensFactor, ht]; rfl⟩
  | power base exponent =>
    obtain ⟨t, ts, htokens, ht⟩ := base.atom_head
    exact ⟨t, _, by rw [tokens, htokens]; rfl, by rw [Token.opensFactor, ht]; rfl⟩

/-- A product begins as its first factor does. -/
theorem product_head (d : Derivation .product) : ∃ t ts, d.tokens = t :: ts ∧ t.opensFactor := by
  cases d with
  | product first steps =>
    obtain ⟨t, ts, htokens, ht⟩ := first.factor_head
    exact ⟨t, _, by rw [tokens, htokens]; rfl, ht⟩

/-- A sum begins as its first product does. -/
theorem sum_head (d : Derivation .sum) : ∃ t ts, d.tokens = t :: ts ∧ t.opensFactor := by
  cases d with
  | sum first steps =>
    obtain ⟨t, ts, htokens, ht⟩ := first.product_head
    exact ⟨t, _, by rw [tokens, htokens]; rfl, ht⟩

/-- An expression begins as a sum does, which is its value or the target of an assignment. -/
theorem expression_head (d : Derivation .expression) :
    ∃ t ts, d.tokens = t :: ts ∧ t.opensFactor := by
  cases d with
  | value operand => exact operand.sum_head
  | assignment target right =>
    obtain ⟨t, ts, htokens, ht⟩ := target.sum_head
    exact ⟨t, _, by rw [tokens, htokens]; rfl, ht⟩

end Derivation

/-! ## The tokens that go on with a phrase -/

/-- The characters that go on with a phrase of this symbol. -/
def Symbol.continuations : Symbol → List Char
  | .atom | .factor => ['^']
  | .product | .productSteps => ['^', '*', '/', '%', '(']
  | .sum | .sumSteps => ['^', '*', '/', '%', '(', '+', '-']
  | .expression => ['^', '*', '/', '%', '(', '+', '-', '=']
  | .arguments | .moreArguments => ['^', '*', '/', '%', '(', '+', '-', '=', ',']

/-- Whether a token goes on with a phrase of this symbol. What begins an atom is multiplied by it
wherever a parenthesis is. -/
def Symbol.continuedBy (s : Symbol) : Token → Bool
  | .op c => c ∈ s.continuations
  | .numeral _ | .word _ => '(' ∈ s.continuations

/-- Whether a phrase of this symbol stops before these tokens. -/
def Symbol.Stops (s : Symbol) (rest : List Token) : Prop :=
  ∀ t, rest.head? = some t → s.continuedBy t = false

namespace Symbol.Stops

variable {s s' : Symbol} {t : Token} {rest : List Token}

/-- Every phrase stops at the end of the tokens. -/
theorem nil (s : Symbol) : s.Stops [] := by
  intro t h
  exact absurd h (Option.some_ne_none t).symm

/-- Only the next token counts. -/
theorem cons (h : s.continuedBy t = false) (rest : List Token) : s.Stops (t :: rest) := by
  intro t' ht'
  rwa [← Option.some.inj ht']

/-- The next token does not go on with the phrase. -/
theorem head (h : s.Stops (t :: rest)) : s.continuedBy t = false := h t rfl

/-- What goes on with an operand goes on with the whole. -/
theorem mono (h : s'.Stops rest) (hle : s.continuations ⊆ s'.continuations) : s.Stops rest := by
  intro t ht
  have hnot := h t ht
  cases t with
  | op c => exact decide_eq_false fun hc => of_decide_eq_false hnot (hle hc)
  | numeral text => exact decide_eq_false fun hc => of_decide_eq_false hnot (hle hc)
  | word text => exact decide_eq_false fun hc => of_decide_eq_false hnot (hle hc)

end Symbol.Stops

/-! ### Behind an operand, before the rest of its chain -/

namespace Derivation

variable {library : Library} {rest : List Token}

/-- A closed phrase has no condition on what stands behind it. -/
theorem stops_of_isClosed {s : Symbol} {d : Derivation s} (h : d.isClosed = true) :
    d.isClosed = false → s.Stops rest :=
  fun hopen => absurd (h.symm.trans hopen) Bool.noConfusion

/-- A product stops before the next step of its sum: the operators of sums do not go on with it. -/
theorem stops_sumSteps (d : Derivation .sumSteps) (h : Symbol.sum.Stops rest) :
    Symbol.product.Stops (d.tokens ++ rest) := by
  cases d with
  | sumEnd => exact h.mono (by decide)
  | sumStep op hop operand steps =>
    refine .cons ?_ _
    rcases hop with rfl | rfl
    · decide
    · decide

/-- The first token of a factor that is multiplied by nothing but its place. -/
theorem juxtaposed_head {operand : Derivation .factor} {steps : Derivation .productSteps}
    (hd : (juxtaposed operand steps).Admissible library) :
    ∃ t ts, operand.tokens = t :: ts ∧ t.opensAtom = true := by
  obtain ⟨t, ts, htokens, -⟩ := operand.factor_head
  exact ⟨t, ts, htokens, by simpa [htokens] using hd.1⟩

/-- A factor stops before the next step of its product. The step has no `^`, which a factor would go
on with, or else it begins with an atom. -/
theorem stops_productSteps (d : Derivation .productSteps) (hd : d.Admissible library)
    (h : Symbol.product.Stops rest) : Symbol.factor.Stops (d.tokens ++ rest) := by
  cases d with
  | productEnd => exact h.mono (by decide)
  | productStep op hop operand steps =>
    refine .cons ?_ _
    rcases hop with rfl | rfl | rfl | rfl
    · decide
    · decide
    · decide
    · -- The step is admissible, so its operator is no `^`.
      exact absurd rfl hd.1
  | juxtaposed operand steps =>
    obtain ⟨t, ts, htokens, hopens⟩ := juxtaposed_head hd
    rw [tokens, htokens]
    refine .cons ?_ _
    cases t with
    | op c => rw [eq_of_beq hopens]; decide
    | numeral text => rfl
    | word text => rfl

/-- An argument stops before the comma of the next one. -/
theorem stops_moreArguments (d : Derivation .moreArguments) (h : Symbol.moreArguments.Stops rest) :
    Symbol.expression.Stops (d.tokens ++ rest) := by
  cases d with
  | argumentsEnd => exact h.mono (by decide)
  | argument e more => exact .cons (by decide) _

/-! ### Before a further step of a chain -/

/-- Steps of a sum that stop have no step behind them, since its operator would go on with them. -/
theorem not_stops_sumStep {op : BinaryOp} {hop : op = .add ∨ op = .sub}
    {operand : Derivation .product} {steps : Derivation .sumSteps} :
    ¬Symbol.sumSteps.Stops ((sumStep op hop operand steps).tokens ++ rest) := by
  intro h
  have hstops := h.head
  rcases hop with rfl | rfl
  · exact absurd hstops (by decide)
  · exact absurd hstops (by decide)

/-- Nor have those of a product a step with an operator behind them. -/
theorem not_stops_productStep {op : BinaryOp}
    {hop : op = .mul ∨ op = .div ∨ op = .rem ∨ op = .pow} {operand : Derivation .factor}
    {steps : Derivation .productSteps} :
    ¬Symbol.productSteps.Stops ((productStep op hop operand steps).tokens ++ rest) := by
  intro h
  have hstops := h.head
  rcases hop with rfl | rfl | rfl | rfl
  · exact absurd hstops (by decide)
  · exact absurd hstops (by decide)
  · exact absurd hstops (by decide)
  · exact absurd hstops (by decide)

/-- Nor have they one without, since an atom goes on with a product wherever an operator does. -/
theorem not_stops_juxtaposed {operand : Derivation .factor} {steps : Derivation .productSteps}
    (hd : (juxtaposed operand steps).Admissible library) :
    ¬Symbol.productSteps.Stops ((juxtaposed operand steps).tokens ++ rest) := by
  intro h
  obtain ⟨t, ts, htokens, hopens⟩ := juxtaposed_head hd
  rw [tokens, htokens] at h
  have hstops := h.head
  cases t with
  | op c => rw [eq_of_beq hopens] at hstops; exact absurd hstops (by decide)
  | numeral text => exact Bool.noConfusion hstops
  | word text => exact Bool.noConfusion hstops

end Derivation

/-! ## First tokens that cannot be confused -/

/-- An operator is known by its token. -/
theorem token_inj {op op' : BinaryOp} (h : op.token = op'.token) : op = op' := by
  have hsymbol : op.symbol = op'.symbol := Token.op.inj h
  -- The symbol can be read back.
  rw [← Option.some_inj, ← BinaryOp.ofSymbol?_symbol op, ← BinaryOp.ofSymbol?_symbol op', hsymbol]

/-- A sign is known by its token. Two operators have the same tokens, but they stand where no sign
can. -/
theorem sign_token_inj {op op' : UnaryOp} (h : op.token = op'.token) : op = op' := by
  cases op <;> cases op' <;> first | rfl | exact absurd h (by decide)

/-- An operator begins no atom. -/
theorem opensAtom_token (op : BinaryOp) : op.token.opensAtom = false := by
  cases op <;> rfl

/-- A sign begins no atom. -/
theorem opensAtom_sign_token (op : UnaryOp) : op.token.opensAtom = false := by
  cases op <;> rfl

/-- What begins a factor goes on with the arguments of a call. -/
theorem continuedBy_arguments {t : Token} (h : t.opensFactor) :
    Symbol.arguments.continuedBy t = true := by
  cases t with
  | numeral text => rfl
  | word text => rfl
  | op c =>
    simp only [Token.opensFactor, Token.opensAtom, Bool.or_eq_true, beq_iff_eq,
      Token.op.injEq] at h
    rcases h with (rfl | rfl) | rfl
    · decide
    · decide
    · decide

namespace Derivation

variable {library : Library} {rest rest' : List Token}

/-- A step with an operator does not look like one without. -/
theorem productStep_ne_juxtaposed {op : BinaryOp}
    {hop : op = .mul ∨ op = .div ∨ op = .rem ∨ op = .pow} {operand operand' : Derivation .factor}
    {steps steps' : Derivation .productSteps}
    (hd : (juxtaposed operand' steps').Admissible library) :
    (productStep op hop operand steps).tokens ++ rest ≠
      (juxtaposed operand' steps').tokens ++ rest' := by
  obtain ⟨t, ts, htokens, hopens⟩ := juxtaposed_head hd
  intro h
  rw [tokens, tokens, htokens] at h
  rw [← (List.cons.inj h).1, opensAtom_token] at hopens
  exact Bool.false_ne_true hopens

/-- A factor with a sign does not look like one without. -/
theorem signed_ne_atom {op : UnaryOp} {operand : Derivation .factor} {base : Derivation .atom} :
    (signed op operand).tokens ++ rest ≠ base.tokens ++ rest' := by
  obtain ⟨t, ts, htokens, hopens⟩ := base.atom_head
  intro h
  rw [tokens, htokens] at h
  rw [← (List.cons.inj h).1, opensAtom_sign_token] at hopens
  exact Bool.false_ne_true hopens

/-- A name does not look like the name of a function. -/
theorem name_ne_function {text function : String} (hd : (name text).Admissible library)
    (hfunction : library.contains function = true) : Token.word text ≠ .word function := by
  intro h
  obtain rfl := Token.word.inj h
  exact Bool.false_ne_true (hd.symm.trans hfunction)

/-- A call with parentheses does not look like one without. -/
theorem call_ne_command {function function' : String} {args : Derivation .arguments}
    {operand : Derivation .factor} (hd : (command function' operand).Admissible library) :
    (call function args).tokens ++ rest ≠ (command function' operand).tokens ++ rest' := by
  obtain ⟨t, ts, htokens, -⟩ := operand.factor_head
  intro h
  rw [tokens, tokens, htokens] at h
  have hparen : Token.op '(' = t := (List.cons.inj (List.cons.inj h).2).1
  exact hd.2.1 (by rw [htokens, hparen]; rfl)

/-- Arguments are no end of arguments. -/
theorem not_stops_someArguments {first : Derivation .expression}
    {more : Derivation .moreArguments} :
    ¬Symbol.arguments.Stops ((someArguments first more).tokens ++ rest) := by
  obtain ⟨t, ts, htokens, hopens⟩ := first.expression_head
  intro h
  rw [tokens, htokens] at h
  exact Bool.false_ne_true (h.head.symm.trans (continuedBy_arguments hopens))

end Derivation

/-! ## Uniqueness -/

/-- No other derivation has the tokens of this one, not even with different tokens behind it. -/
def Determined (library : Library) {s : Symbol} (d : Derivation s) : Prop :=
  d.Admissible library → ∀ (d' : Derivation s) (rest rest' : List Token), d'.Admissible library →
    (d.isClosed = false → s.Stops rest) → (d'.isClosed = false → s.Stops rest') →
    d.tokens ++ rest = d'.tokens ++ rest' → d = d' ∧ rest = rest'

namespace Determined

open Grammar.Derivation

variable {library : Library}

/-- Two phrases in a row. What stands behind the first one is the second one with the rest. -/
theorem sequence {s s' : Symbol} {d e : Derivation s} {d' e' : Derivation s'}
    {rest rest' : List Token} (ih : Determined library d) (ih' : Determined library d')
    (hd : d.Admissible library) (hd' : d'.Admissible library) (he : e.Admissible library)
    (he' : e'.Admissible library) (hstops : s.Stops (d'.tokens ++ rest))
    (hstops' : s.Stops (e'.tokens ++ rest')) (hr : s'.Stops rest) (hr' : s'.Stops rest')
    (h : d.tokens ++ (d'.tokens ++ rest) = e.tokens ++ (e'.tokens ++ rest')) :
    d = e ∧ d' = e' ∧ rest = rest' := by
  obtain ⟨hfirst, htail⟩ := ih hd e _ _ he (fun _ => hstops) (fun _ => hstops') h
  obtain ⟨hsecond, hrest⟩ := ih' hd' e' _ _ he' (fun _ => hr) (fun _ => hr') htail
  exact ⟨hfirst, hsecond, hrest⟩

/-- A value is told apart from an assignment by what is behind its sum. If this were an `=`, the
value would not stop. -/
theorem value {operand : Derivation .sum} (ih : Determined library operand) :
    Determined library (.value operand) := by
  intro hd d' rest rest' hd' hr hr' h
  have hsum : Symbol.sum.Stops rest := (hr rfl).mono (by decide)
  cases d' with
  | value operand' =>
    have hsum' : Symbol.sum.Stops rest' := (hr' rfl).mono (by decide)
    obtain ⟨rfl, hrest⟩ := ih hd operand' rest rest' hd' (fun _ => hsum) (fun _ => hsum') h
    exact ⟨rfl, hrest⟩
  | assignment target right =>
    rw [tokens, tokens, List.append_assoc, List.cons_append] at h
    -- The sums are the same, so the `=` of the assignment stands behind the value.
    obtain ⟨-, rfl⟩ :=
      ih hd target _ _ hd'.1 (fun _ => hsum) (fun _ => .cons (by decide) _) h
    exact absurd (hr rfl).head (by decide)

/-- An assignment has its `=` where the sum of a value would have to stop. Else it is determined by
its target, which stops before the `=`, and by its right side. -/
theorem assignment {target : Derivation .sum} {right : Derivation .expression}
    (iht : Determined library target) (ihr : Determined library right) :
    Determined library (.assignment target right) := by
  intro hd d' rest rest' hd' hr hr' h
  rw [tokens, List.append_assoc, List.cons_append] at h
  cases d' with
  | value operand =>
    have hsum' : Symbol.sum.Stops rest' := (hr' rfl).mono (by decide)
    obtain ⟨-, rfl⟩ := iht hd.1 operand _ _ hd' (fun _ => .cons (by decide) _) (fun _ => hsum') h
    exact absurd (hr' rfl).head (by decide)
  | assignment target' right' =>
    rw [tokens, List.append_assoc, List.cons_append] at h
    obtain ⟨rfl, htail⟩ :=
      iht hd.1 target' _ _ hd'.1 (fun _ => .cons (by decide) _) (fun _ => .cons (by decide) _) h
    obtain ⟨rfl, hrest⟩ :=
      ihr hd.2 right' _ _ hd'.2 (fun _ => hr rfl) (fun _ => hr' rfl) (List.cons.inj htail).2
    exact ⟨rfl, hrest⟩

/-- A sum is cut where its first product stops. -/
theorem sum {first : Derivation .product} {steps : Derivation .sumSteps}
    (ihf : Determined library first) (ihs : Determined library steps) :
    Determined library (.sum first steps) := by
  intro hd d' rest rest' hd' hr hr' h
  cases d' with
  | sum first' steps' =>
    rw [tokens, tokens, List.append_assoc, List.append_assoc] at h
    obtain ⟨rfl, rfl, hrest⟩ := sequence ihf ihs hd.1 hd.2 hd'.1 hd'.2
      (steps.stops_sumSteps (hr rfl)) (steps'.stops_sumSteps (hr' rfl)) (hr rfl) (hr' rfl) h
    exact ⟨rfl, hrest⟩

/-- The end of a sum has no tokens, and no step can begin where a sum stops. -/
theorem sumEnd : Determined library .sumEnd := by
  intro hd d' rest rest' hd' hr hr' h
  cases d' with
  | sumEnd => exact ⟨rfl, h⟩
  | sumStep op hop operand steps =>
    rw [tokens, List.nil_append] at h
    exact absurd (h ▸ hr rfl) not_stops_sumStep

/-- A step of a sum is known by its operator, and is cut where its operand stops. -/
theorem sumStep {op : BinaryOp} {hop : op = .add ∨ op = .sub} {operand : Derivation .product}
    {steps : Derivation .sumSteps} (iho : Determined library operand)
    (ihs : Determined library steps) : Determined library (.sumStep op hop operand steps) := by
  intro hd d' rest rest' hd' hr hr' h
  cases d' with
  | sumEnd =>
    obtain rfl : _ = rest' := h
    exact absurd (hr' rfl) not_stops_sumStep
  | sumStep op' hop' operand' steps' =>
    -- The first token fixes the operator. The proofs that it is one of a sum are then equal.
    simp only [tokens, List.cons_append, List.append_assoc, List.cons.injEq] at h
    obtain ⟨htoken, h⟩ := h
    obtain rfl := token_inj htoken
    obtain ⟨rfl, rfl, hrest⟩ := sequence iho ihs hd.1 hd.2 hd'.1 hd'.2
      (steps.stops_sumSteps (hr rfl)) (steps'.stops_sumSteps (hr' rfl)) (hr rfl) (hr' rfl) h
    exact ⟨rfl, hrest⟩

/-- A product is cut where its first factor stops. This needs the steps to be admissible, since a
factor would go on with a `^`. -/
theorem product {first : Derivation .factor} {steps : Derivation .productSteps}
    (ihf : Determined library first) (ihs : Determined library steps) :
    Determined library (.product first steps) := by
  intro hd d' rest rest' hd' hr hr' h
  cases d' with
  | product first' steps' =>
    rw [tokens, tokens, List.append_assoc, List.append_assoc] at h
    obtain ⟨rfl, rfl, hrest⟩ := sequence ihf ihs hd.1 hd.2 hd'.1 hd'.2
      (steps.stops_productSteps hd.2 (hr rfl)) (steps'.stops_productSteps hd'.2 (hr' rfl))
      (hr rfl) (hr' rfl) h
    exact ⟨rfl, hrest⟩

/-- The end of a product has no tokens, and neither kind of step can begin where a product stops. -/
theorem productEnd : Determined library .productEnd := by
  intro hd d' rest rest' hd' hr hr' h
  rw [tokens, List.nil_append] at h
  cases d' with
  | productEnd => exact ⟨rfl, h⟩
  | productStep op hop operand steps => exact absurd (h ▸ hr rfl) not_stops_productStep
  | juxtaposed operand steps => exact absurd (h ▸ hr rfl) (not_stops_juxtaposed hd')

/-- A step with an operator is known by it, and is cut where its operand stops. -/
theorem productStep {op : BinaryOp} {hop : op = .mul ∨ op = .div ∨ op = .rem ∨ op = .pow}
    {operand : Derivation .factor} {steps : Derivation .productSteps}
    (iho : Determined library operand) (ihs : Determined library steps) :
    Determined library (.productStep op hop operand steps) := by
  intro hd d' rest rest' hd' hr hr' h
  cases d' with
  | productEnd =>
    obtain rfl : _ = rest' := h
    exact absurd (hr' rfl) not_stops_productStep
  | productStep op' hop' operand' steps' =>
    simp only [tokens, List.cons_append, List.append_assoc, List.cons.injEq] at h
    obtain ⟨htoken, h⟩ := h
    obtain rfl := token_inj htoken
    obtain ⟨rfl, rfl, hrest⟩ := sequence iho ihs hd.2.1 hd.2.2 hd'.2.1 hd'.2.2
      (steps.stops_productSteps hd.2.2 (hr rfl)) (steps'.stops_productSteps hd'.2.2 (hr' rfl))
      (hr rfl) (hr' rfl) h
    exact ⟨rfl, hrest⟩
  | juxtaposed operand' steps' => exact absurd h (productStep_ne_juxtaposed hd')

/-- A step without an operator begins with an atom, which no operator does, and is cut where its
operand stops. -/
theorem juxtaposed {operand : Derivation .factor} {steps : Derivation .productSteps}
    (iho : Determined library operand) (ihs : Determined library steps) :
    Determined library (.juxtaposed operand steps) := by
  intro hd d' rest rest' hd' hr hr' h
  cases d' with
  | productEnd =>
    obtain rfl : _ = rest' := h
    exact absurd (hr' rfl) (not_stops_juxtaposed hd)
  | productStep op' hop' operand' steps' => exact absurd h.symm (productStep_ne_juxtaposed hd)
  | juxtaposed operand' steps' =>
    -- There is no operator to compare, so the operands begin at once.
    simp only [tokens, List.append_assoc] at h
    obtain ⟨rfl, rfl, hrest⟩ := sequence iho ihs hd.2.1 hd.2.2 hd'.2.1 hd'.2.2
      (steps.stops_productSteps hd.2.2 (hr rfl)) (steps'.stops_productSteps hd'.2.2 (hr' rfl))
      (hr rfl) (hr' rfl) h
    exact ⟨rfl, hrest⟩

/-- A factor with a sign is known by it, since no atom begins with a sign. -/
theorem signed {op : UnaryOp} {operand : Derivation .factor} (ih : Determined library operand) :
    Determined library (.signed op operand) := by
  intro hd d' rest rest' hd' hr hr' h
  cases d' with
  | signed op' operand' =>
    simp only [tokens, List.cons_append, List.cons.injEq] at h
    obtain ⟨htoken, h⟩ := h
    obtain rfl := sign_token_inj htoken
    obtain ⟨rfl, hrest⟩ := ih hd operand' _ _ hd' (fun _ => hr rfl) (fun _ => hr' rfl) h
    exact ⟨rfl, hrest⟩
  | single base => exact absurd h signed_ne_atom
  | power base exponent => exact absurd (h.trans (List.append_assoc _ _ _)) signed_ne_atom

/-- A single atom is told apart from a power by what is behind it. If this were a `^`, the factor
would not stop. -/
theorem single {base : Derivation .atom} (ih : Determined library base) :
    Determined library (.single base) := by
  intro hd d' rest rest' hd' hr hr' h
  have hatom : Symbol.atom.Stops rest := (hr rfl).mono (by decide)
  cases d' with
  | signed op operand => exact absurd h.symm signed_ne_atom
  | single base' =>
    have hatom' : Symbol.atom.Stops rest' := (hr' rfl).mono (by decide)
    obtain ⟨rfl, hrest⟩ := ih hd base' _ _ hd' (fun _ => hatom) (fun _ => hatom') h
    exact ⟨rfl, hrest⟩
  | power base' exponent =>
    rw [tokens, tokens, List.append_assoc, List.cons_append] at h
    -- The base of a power is closed, so nothing has to be known of the `^` behind it.
    have hclosed : base'.isClosed = true := hd'.1
    obtain ⟨-, rfl⟩ := ih hd base' _ _ hd'.2.1 (fun _ => hatom)
      (stops_of_isClosed hclosed) h
    exact absurd (hr rfl).head (by decide)

/-- A power is cut behind its base. The base is closed, so the `^` need not be a token that it stops
before. -/
theorem power {base : Derivation .atom} {exponent : Derivation .factor}
    (ihb : Determined library base) (ihe : Determined library exponent) :
    Determined library (.power base exponent) := by
  intro hd d' rest rest' hd' hr hr' h
  have hclosed : base.isClosed = true := hd.1
  rw [tokens, List.append_assoc, List.cons_append] at h
  cases d' with
  | signed op operand => exact absurd h.symm signed_ne_atom
  | single base' =>
    have hatom' : Symbol.atom.Stops rest' := (hr' rfl).mono (by decide)
    obtain ⟨-, rfl⟩ := ihb hd.2.1 base' _ _ hd'
      (stops_of_isClosed hclosed) (fun _ => hatom') h
    exact absurd (hr' rfl).head (by decide)
  | power base' exponent' =>
    rw [tokens, List.append_assoc, List.cons_append] at h
    have hclosed' : base'.isClosed = true := hd'.1
    obtain ⟨rfl, htail⟩ := ihb hd.2.1 base' _ _ hd'.2.1
      (stops_of_isClosed hclosed)
      (stops_of_isClosed hclosed') h
    obtain ⟨rfl, hrest⟩ := ihe hd.2.2 exponent' _ _ hd'.2.2 (fun _ => hr rfl) (fun _ => hr' rfl)
      (List.cons.inj htail).2
    exact ⟨rfl, hrest⟩

/-- A numeral is known by its token, which nothing else begins with. -/
theorem numeral (text : String) : Determined library (.numeral text) := by
  intro hd d' rest rest' hd' hr hr' h
  cases d' with
  | numeral text' =>
    obtain ⟨htoken, hrest⟩ := List.cons.inj h
    exact ⟨congrArg _ (Token.numeral.inj htoken), hrest⟩
  | name text' => exact Token.noConfusion (List.cons.inj h).1
  | group e => exact Token.noConfusion (List.cons.inj h).1
  | call function args => exact Token.noConfusion (List.cons.inj h).1
  | command function operand => exact Token.noConfusion (List.cons.inj h).1

/-- A name is known by its token. A call begins with a word as well, but with one that is no name.
-/
theorem name (text : String) : Determined library (.name text) := by
  intro hd d' rest rest' hd' hr hr' h
  cases d' with
  | numeral text' => exact Token.noConfusion (List.cons.inj h).1
  | name text' =>
    obtain ⟨htoken, hrest⟩ := List.cons.inj h
    exact ⟨congrArg _ (Token.word.inj htoken), hrest⟩
  | group e => exact Token.noConfusion (List.cons.inj h).1
  | call function args => exact absurd (List.cons.inj h).1 (name_ne_function hd hd'.1)
  | command function operand => exact absurd (List.cons.inj h).1 (name_ne_function hd hd'.1)

/-- A group is known by its first token, and what is inside stops before the parenthesis that closes
it. -/
theorem group {e : Derivation .expression} (ih : Determined library e) :
    Determined library (.group e) := by
  intro hd d' rest rest' hd' hr hr' h
  cases d' with
  | numeral text => exact Token.noConfusion (List.cons.inj h).1
  | name text => exact Token.noConfusion (List.cons.inj h).1
  | group e' =>
    simp only [tokens, List.cons_append, List.append_assoc, List.nil_append, List.cons.injEq,
      true_and] at h
    obtain ⟨rfl, htail⟩ :=
      ih hd e' _ _ hd' (fun _ => .cons (by decide) _) (fun _ => .cons (by decide) _) h
    exact ⟨rfl, (List.cons.inj htail).2⟩
  | call function args => exact Token.noConfusion (List.cons.inj h).1
  | command function operand => exact Token.noConfusion (List.cons.inj h).1

/-- A call is known by its word, and its arguments stop before the parenthesis that closes them. -/
theorem call {function : String} {args : Derivation .arguments} (ih : Determined library args) :
    Determined library (.call function args) := by
  intro hd d' rest rest' hd' hr hr' h
  cases d' with
  | numeral text => exact Token.noConfusion (List.cons.inj h).1
  | name text => exact absurd (List.cons.inj h).1.symm (name_ne_function hd' hd.1)
  | group e => exact Token.noConfusion (List.cons.inj h).1
  | call function' args' =>
    simp only [tokens, List.cons_append, List.append_assoc, List.nil_append, List.cons.injEq,
      Token.word.injEq, true_and] at h
    obtain ⟨rfl, h⟩ := h
    obtain ⟨rfl, htail⟩ :=
      ih hd.2 args' _ _ hd'.2 (fun _ => .cons (by decide) _) (fun _ => .cons (by decide) _) h
    exact ⟨rfl, (List.cons.inj htail).2⟩
  | command function' operand => exact absurd h (call_ne_command hd')

/-- A call without parentheses is known by its word and by what comes next, which is no parenthesis.
It is open, so it stops where its operand does. -/
theorem command {function : String} {operand : Derivation .factor}
    (ih : Determined library operand) : Determined library (.command function operand) := by
  intro hd d' rest rest' hd' hr hr' h
  cases d' with
  | numeral text => exact Token.noConfusion (List.cons.inj h).1
  | name text => exact absurd (List.cons.inj h).1.symm (name_ne_function hd' hd.1)
  | group e => exact Token.noConfusion (List.cons.inj h).1
  | call function' args => exact absurd h.symm (call_ne_command hd)
  | command function' operand' =>
    -- The operand is a factor, which stops wherever an atom does.
    simp only [tokens, List.cons_append, List.cons.injEq, Token.word.injEq] at h
    obtain ⟨rfl, h⟩ := h
    obtain ⟨rfl, hrest⟩ := ih hd.2.2 operand' _ _ hd'.2.2
      (fun _ => (hr rfl).mono (by decide)) (fun _ => (hr' rfl).mono (by decide)) h
    exact ⟨rfl, hrest⟩

/-- Where there are no arguments there are no tokens, and what begins an argument would go on with
them. -/
theorem noArguments : Determined library .noArguments := by
  intro hd d' rest rest' hd' hr hr' h
  cases d' with
  | noArguments => exact ⟨rfl, h⟩
  | someArguments first more =>
    -- What begins an argument would go on with the arguments.
    obtain rfl : rest = _ := h
    exact absurd (hr rfl) not_stops_someArguments

/-- Arguments are cut where the first one stops. -/
theorem someArguments {first : Derivation .expression} {more : Derivation .moreArguments}
    (ihf : Determined library first) (ihm : Determined library more) :
    Determined library (.someArguments first more) := by
  intro hd d' rest rest' hd' hr hr' h
  cases d' with
  | noArguments =>
    obtain rfl : _ = rest' := h
    exact absurd (hr' rfl) not_stops_someArguments
  | someArguments first' more' =>
    have hmore : Symbol.moreArguments.Stops rest := (hr rfl).mono (by decide)
    have hmore' : Symbol.moreArguments.Stops rest' := (hr' rfl).mono (by decide)
    rw [tokens, tokens, List.append_assoc, List.append_assoc] at h
    obtain ⟨rfl, rfl, hrest⟩ := sequence ihf ihm hd.1 hd.2 hd'.1 hd'.2
      (more.stops_moreArguments hmore) (more'.stops_moreArguments hmore') hmore hmore' h
    exact ⟨rfl, hrest⟩

/-- Behind the last argument there is no comma. -/
theorem argumentsEnd : Determined library .argumentsEnd := by
  intro hd d' rest rest' hd' hr hr' h
  cases d' with
  | argumentsEnd => exact ⟨rfl, h⟩
  | argument e more =>
    obtain rfl : rest = _ := h
    exact absurd (hr rfl).head (by decide)

/-- A further argument is known by its comma, and is cut where it stops. -/
theorem argument {e : Derivation .expression} {more : Derivation .moreArguments}
    (ihe : Determined library e) (ihm : Determined library more) :
    Determined library (.argument e more) := by
  intro hd d' rest rest' hd' hr hr' h
  cases d' with
  | argumentsEnd =>
    obtain rfl : _ = rest' := h
    exact absurd (hr' rfl).head (by decide)
  | argument e' more' =>
    simp only [tokens, List.cons_append, List.append_assoc, List.cons.injEq, true_and] at h
    obtain ⟨rfl, rfl, hrest⟩ := sequence ihe ihm hd.1 hd.2 hd'.1 hd'.2
      (more.stops_moreArguments (hr rfl)) (more'.stops_moreArguments (hr' rfl))
      (hr rfl) (hr' rfl) h
    exact ⟨rfl, hrest⟩

end Determined

namespace Derivation

/-- Every derivation is determined by its tokens. A rule has one case above, in which the phrases it
puts together are determined already: they are cut one after the other, and each cut leaves the same
tokens behind it on both sides. -/
theorem determined (library : Library) {s : Symbol} (d : Derivation s) : Determined library d := by
  induction d with
  | value operand ih => exact .value ih
  | assignment target right iht ihr => exact .assignment iht ihr
  | sum first steps ihf ihs => exact .sum ihf ihs
  | sumEnd => exact .sumEnd
  | sumStep op hop operand steps iho ihs => exact .sumStep iho ihs
  | product first steps ihf ihs => exact .product ihf ihs
  | productEnd => exact .productEnd
  | productStep op hop operand steps iho ihs => exact .productStep iho ihs
  | juxtaposed operand steps iho ihs => exact .juxtaposed iho ihs
  | signed op operand ih => exact .signed ih
  | single base ih => exact .single ih
  | power base exponent ihb ihe => exact .power ihb ihe
  | numeral text => exact .numeral text
  | name text => exact .name text
  | group e ih => exact .group ih
  | call function args ih => exact .call ih
  | command function operand ih => exact .command ih
  | noArguments => exact .noArguments
  | someArguments first more ihf ihm => exact .someArguments ihf ihm
  | argumentsEnd => exact .argumentsEnd
  | argument e more ihe ihm => exact .argument ihe ihm

/-- Two admissible derivations of the same tokens are the same. -/
theorem eq_of_tokens_eq {library : Library} {s : Symbol} {d d' : Derivation s}
    (hd : d.Admissible library) (hd' : d'.Admissible library) (h : d.tokens = d'.tokens) :
    d = d' :=
  (d.determined library hd d' [] [] hd' (fun _ => .nil s) (fun _ => .nil s) (by rw [h])).1

end Derivation
end Reckoner.Grammar
