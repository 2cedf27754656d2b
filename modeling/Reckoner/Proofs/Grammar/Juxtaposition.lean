/-
Two factors side by side are read as if a multiplication stood between them.

Take tokens that end an operand and tokens that begin one, and read them with and without a `*`
between them. Both readings do the same up to the place where they differ: they open the same rules,
take the same tokens, and fail with the same fault, since no rule looks past the end of an operand.
There both have just read an atom, so they are back in the innermost product, and its loop goes on in
the same way. It takes the `*`, or takes nothing, and behind it the tokens are the same.

The invariant is a relation between the tokens that the two readings have left. The place is still to
come, with the end of an operand before it, or the tokens are the same. Behind an atom, a power or a
factor the place may also be right there, but no product ends at it.
-/
import Reckoner.Proofs.Grammar.Branches

set_option autoImplicit false

namespace Reckoner

/-- Whether an operand can end with this token: a numeral, a word that is no function, or a closing
parenthesis. -/
def Token.endsOperand (library : Library) : Token → Bool
  | .numeral _ => true
  | .word text => !library.contains text
  | .op c => c == ')'

namespace Grammar

/-! ## Readings with the same outcome -/

/-- Two readings fail with the same fault, or return the same and leave tokens that are related. -/
inductive SameOutcome {α : Type} (R : List Token → List Token → Prop) :
    Except SyntaxFault (α × List Token) → Except SyntaxFault (α × List Token) → Prop where
  | error (fault : SyntaxFault) : SameOutcome R (.error fault) (.error fault)
  | ok (a : α) {ts ts' : List Token} (h : R ts ts') : SameOutcome R (.ok (a, ts)) (.ok (a, ts'))

namespace SameOutcome

variable {α β : Type} {R S : List Token → List Token → Prop}
  {x y : Except SyntaxFault (α × List Token)}

theorem refl (hR : ∀ ts, R ts ts) (x : Except SyntaxFault (α × List Token)) :
    SameOutcome R x x := by
  rcases x with fault | ⟨a, ts⟩
  · exact .error fault
  · exact .ok a (hR ts)

/-- Going on in the same way from what both have read. -/
theorem bind {f g : α × List Token → Except SyntaxFault (β × List Token)} (h : SameOutcome R x y)
    (hnext : ∀ a ts ts', x = .ok (a, ts) → y = .ok (a, ts') → R ts ts' →
      SameOutcome S (f (a, ts)) (g (a, ts'))) : SameOutcome S (x >>= f) (y >>= g) := by
  cases h with
  | error fault => exact .error fault
  | ok a hts => exact hnext a _ _ rfl rfl hts

end SameOutcome

/-! ## The tokens that both have left -/

/-- Whether the last of these tokens ends an operand. -/
def EndsOperand (library : Library) (us : List Token) : Prop :=
  us.getLast?.any (Token.endsOperand library) = true

/-- The same tokens, or tokens that differ in a multiplication before `v` only, which stands behind
the end of an operand. -/
inductive Alike (library : Library) (v : List Token) : List Token → List Token → Prop where
  | before {us : List Token} (h : EndsOperand library us) :
    Alike library v (us ++ .op '*' :: v) (us ++ v)
  | same (ts : List Token) : Alike library v ts ts

/-- Alike, or the multiplication is what comes next. -/
inductive AlikeBehind (library : Library) (v : List Token) : List Token → List Token → Prop where
  | alike {ts ts' : List Token} (h : Alike library v ts ts') : AlikeBehind library v ts ts'
  | boundary : AlikeBehind library v (.op '*' :: v) v

section Alike

variable {library : Library} {v ts ts' : List Token}

theorem AlikeBehind.same (ts : List Token) : AlikeBehind library v ts ts :=
  .alike (.same ts)

/-- Tokens that are alike begin with the same one. Only if it ends an operand, the multiplication may
be what comes next. -/
theorem Alike.cases (h : Alike library v ts ts') :
    (ts = [] ∧ ts' = []) ∨
      ∃ t us us', ts = t :: us ∧ ts' = t :: us' ∧ AlikeBehind library v us us' ∧
        (t.endsOperand library = false → Alike library v us us') := by
  cases h with
  | before hends =>
    rename_i us
    cases us with
    | nil => exact absurd hends Bool.false_ne_true
    | cons t us =>
      refine Or.inr ⟨t, _, _, rfl, rfl, ?_⟩
      cases us with
      | nil =>
        -- The token in front of the multiplication ends an operand.
        have hlast : t.endsOperand library = true := hends
        exact ⟨.boundary, fun hnot => absurd (hlast.symm.trans hnot) Bool.noConfusion⟩
      | cons t' us =>
        have htail : Alike library v (t' :: us ++ .op '*' :: v) (t' :: us ++ v) := by
          refine .before ?_
          rwa [EndsOperand, List.getLast?_cons_cons] at hends
        exact ⟨.alike htail, fun _ => htail⟩
  | same ts =>
    cases ts with
    | nil => exact Or.inl ⟨rfl, rfl⟩
    | cons t us => exact Or.inr ⟨t, us, us, rfl, rfl, .same us, fun _ => .same us⟩

/-- Of the characters that stand for themselves, only a closing parenthesis ends an operand. -/
theorem endsOperand_op {c : Char} (h : c ≠ ')') : (Token.op c).endsOperand library = false :=
  beq_eq_false_iff_ne.mpr h

end Alike

/-! ## Chains -/

/-- What a link does is decided by the first token: there is no link, or the token stays in front, or
it is taken and ends no operand. -/
def LinksByHead (library : Library) (link? : List Token → Option (BinaryOp × List Token)) : Prop :=
  link? [] = none ∧ ∀ t,
    (∀ ts, link? (t :: ts) = none) ∨ ∃ op,
      (∀ ts, link? (t :: ts) = some (op, t :: ts)) ∨
        (∀ ts, link? (t :: ts) = some (op, ts)) ∧ t.endsOperand library = false

theorem endsOperand_token (library : Library) (op : BinaryOp) :
    op.token.endsOperand library = false := by
  cases op <;> rfl

/-- The operators of sums are links, and are taken. -/
theorem sumLink?_byHead (library : Library) : LinksByHead library sumLink? := by
  refine ⟨rfl, fun t => ?_⟩
  by_cases hadd : t = BinaryOp.add.token
  · subst hadd
    exact Or.inr ⟨.add, Or.inr ⟨fun _ => rfl, endsOperand_token library _⟩⟩
  by_cases hsub : t = BinaryOp.sub.token
  · subst hsub
    exact Or.inr ⟨.sub, Or.inr ⟨fun _ => rfl, endsOperand_token library _⟩⟩
  refine Or.inl fun ts => ?_
  cases hlink : sumLink? (t :: ts) with
  | none => rfl
  | some next =>
    obtain ⟨op, rest⟩ := next
    obtain ⟨rfl | rfl, heq⟩ := sumLink?_eq_some hlink
    · exact absurd (List.cons.inj heq).1 hadd
    · exact absurd (List.cons.inj heq).1 hsub

/-- So are those of products. What begins an atom is a link as well, and stays in front. -/
theorem productLink?_byHead (library : Library) : LinksByHead library productLink? := by
  refine ⟨rfl, fun t => ?_⟩
  by_cases hopens : t.opensAtom = true
  · exact Or.inr ⟨.mul, Or.inl fun ts => productLink?_opensAtom hopens ts⟩
  by_cases hop : ∃ op : BinaryOp, (op = .mul ∨ op = .div ∨ op = .rem ∨ op = .pow) ∧ t = op.token
  · obtain ⟨op, hop, rfl⟩ := hop
    exact Or.inr ⟨op, Or.inr ⟨fun ts => productLink?_token hop ts, endsOperand_token library op⟩⟩
  refine Or.inl fun ts => ?_
  cases hlink : productLink? (t :: ts) with
  | none => rfl
  | some next =>
    rcases productLink?_eq_some hlink with ⟨hop', heq⟩ | ⟨-, -, hopens'⟩
    · exact absurd ⟨_, hop', (List.cons.inj heq).1⟩ hop
    · exact absurd hopens' hopens

section Chain

variable {library : Library} {v ts ts' : List Token}
  {link? : List Token → Option (BinaryOp × List Token)} {item : Phrase Expr}

/-- Two lists of tokens have no link and are alike, or have the same one, and are alike behind it. -/
def SameLink (library : Library) (v : List Token)
    (link? : List Token → Option (BinaryOp × List Token)) (ts ts' : List Token) : Prop :=
  (link? ts = none ∧ link? ts' = none ∧ Alike library v ts ts') ∨
    ∃ op us us', link? ts = some (op, us) ∧ link? ts' = some (op, us') ∧ Alike library v us us' ∧
      ts ≠ [] ∧ ts' ≠ [] ∧ us.length ≤ ts.length ∧ us'.length ≤ ts'.length

/-- Tokens that are alike begin with the same one, so they have the same link. If it is taken, it
has ended no operand, and the place is still to come. -/
theorem Alike.sameLink (hlink : LinksByHead library link?) (h : Alike library v ts ts') :
    SameLink library v link? ts ts' := by
  rcases h.cases with ⟨rfl, rfl⟩ | ⟨t, us, us', rfl, rfl, -, hbehind⟩
  · exact Or.inl ⟨hlink.1, hlink.1, h⟩
  rcases hlink.2 t with hnone | ⟨op, hstays | ⟨htaken, hends⟩⟩
  · exact Or.inl ⟨hnone us, hnone us', h⟩
  · exact Or.inr ⟨op, _, _, hstays us, hstays us', h, List.cons_ne_nil _ _, List.cons_ne_nil _ _,
      Nat.le_refl _, Nat.le_refl _⟩
  · exact Or.inr ⟨op, us, us', htaken us, htaken us', hbehind hends, List.cons_ne_nil _ _,
      List.cons_ne_nil _ _, Nat.le_succ _, Nat.le_succ _⟩

/-- Where the multiplication comes next, one product takes it and the other one takes nothing. -/
theorem AlikeBehind.sameLink (hv : v.head?.any Token.opensAtom = true)
    (h : AlikeBehind library v ts ts') : SameLink library v productLink? ts ts' := by
  cases h with
  | alike h => exact h.sameLink (productLink?_byHead library)
  | boundary =>
    cases v with
    | nil => exact absurd hv Bool.false_ne_true
    | cons t v =>
      exact Or.inr ⟨.mul, t :: v, t :: v, rfl, productLink?_opensAtom hv v, .same _,
        List.cons_ne_nil _ _, List.cons_ne_nil _ _, Nat.le_succ _, Nat.le_refl _⟩

/-- A chain goes on in the same way. The two readings count different numbers of tokens, but both
have as much fuel as tokens. -/
theorem sameOutcome_chain {R : List Token → List Token → Prop} (hshort : Shortens item)
    (hitem : ∀ {ts ts'}, Alike library v ts ts' → SameOutcome R (item ts) (item ts'))
    (hlink : ∀ {ts ts'}, R ts ts' → SameLink library v link? ts ts') {fuel fuel' : Nat}
    (hfuel : ts.length ≤ fuel) (hfuel' : ts'.length ≤ fuel') (h : R ts ts') (left : Expr) :
    SameOutcome (Alike library v) (chain item link? fuel left ts)
      (chain item link? fuel' left ts') := by
  induction fuel generalizing fuel' ts ts' left with
  | zero =>
    rcases hlink h with ⟨hnone, hnone', halike⟩ | ⟨op, us, us', -, -, -, hne, -⟩
    · rw [chain_of_none hnone, chain_of_none hnone']
      exact .ok left halike
    · exact absurd (List.eq_nil_of_length_eq_zero (Nat.le_zero.mp hfuel)) hne
  | succ fuel ih =>
    rcases hlink h with ⟨hnone, hnone', halike⟩ |
      ⟨op, us, us', hsome, hsome', halike, -, hne', hle, hle'⟩
    · rw [chain_of_none hnone, chain_of_none hnone']
      exact .ok left halike
    · cases fuel' with
      | zero => exact absurd (List.eq_nil_of_length_eq_zero (Nat.le_zero.mp hfuel')) hne'
      | succ fuel' =>
        rw [chain, chain, hsome, hsome']
        refine (hitem halike).bind fun right rest rest' hread hread' hrest => ?_
        have hlt := hshort hread
        have hlt' := hshort hread'
        exact ih (by omega) (by omega) hrest _

end Chain

/-! ## The rules, given those inside -/

/-- The two rules do the same on tokens that are alike. -/
structure Rules.SameOutcomes (library : Library) (v : List Token) (r : Rules) : Prop where
  expression : ∀ {ts ts'}, Alike library v ts ts' →
    SameOutcome (Alike library v) (r.expression ts) (r.expression ts')
  factor : ∀ {ts ts'}, Alike library v ts ts' →
    SameOutcome (AlikeBehind library v) (r.factor ts) (r.factor ts')

namespace Rules.SameOutcomes

variable {library : Library} {v : List Token} {n : Nat} {r : Rules} {ts ts' : List Token}

/-- A product. The place may be right behind its first factor, or behind a later one. There the one
chain takes the multiplication, and the other one nothing. -/
theorem product (hv : v.head?.any Token.opensAtom = true) (hs : r.Sound library n)
    (hr : r.SameOutcomes library v) (h : Alike library v ts ts') :
    SameOutcome (Alike library v) (Grammar.product r ts) (Grammar.product r ts') :=
  (hr.factor h).bind fun left _ _ _ _ hrest =>
    sameOutcome_chain hs.factor_shortens hr.factor (fun h => h.sameLink hv) (Nat.le_refl _)
      (Nat.le_refl _) hrest left

/-- A sum. No product ends at the place, so its chain has tokens that are alike. -/
theorem sum (hv : v.head?.any Token.opensAtom = true) (hs : r.Sound library n)
    (hr : r.SameOutcomes library v) (h : Alike library v ts ts') :
    SameOutcome (Alike library v) (Grammar.sum r ts) (Grammar.sum r ts') :=
  (hr.product hv hs h).bind fun left _ _ _ _ hrest =>
    sameOutcome_chain hs.product_shortens (hr.product hv hs)
      (fun h => h.sameLink (sumLink?_byHead library)) (Nat.le_refl _) (Nat.le_refl _) hrest left

/-- A parenthesis that closes ends an operand, so the place may be right behind it. -/
theorem closing (h : Alike library v ts ts') :
    SameOutcome (AlikeBehind library v) (Grammar.closing ts) (Grammar.closing ts') := by
  rcases h.cases with ⟨rfl, rfl⟩ | ⟨t, us, us', rfl, rfl, hbehind, -⟩
  · exact .error .unclosed
  by_cases hclose : t = .op ')'
  · subst hclose
    exact .ok () hbehind
  · rw [closing_of_ne hclose, closing_of_ne hclose]
    exact .error .unclosed

/-- Further arguments. A comma ends no operand, and no argument ends at the place. -/
theorem moreArguments (hs : r.Sound library n) (hr : r.SameOutcomes library v) {fuel fuel' : Nat}
    (hfuel : ts.length ≤ fuel) (hfuel' : ts'.length ≤ fuel') (h : Alike library v ts ts') :
    SameOutcome (Alike library v) (Grammar.moreArguments r fuel ts)
      (Grammar.moreArguments r fuel' ts') := by
  induction fuel generalizing fuel' ts ts' with
  | zero =>
    rcases h.cases with ⟨rfl, rfl⟩ | ⟨t, us, us', rfl, rfl, -, -⟩
    · rw [moreArguments_of_ne (by rintro ⟨⟩), moreArguments_of_ne (by rintro ⟨⟩)]
      exact .ok [] h
    · exact absurd hfuel (Nat.not_succ_le_zero _)
  | succ fuel ih =>
    rcases h.cases with ⟨rfl, rfl⟩ | ⟨t, us, us', rfl, rfl, -, hbehind⟩
    · rw [moreArguments_of_ne (by rintro ⟨⟩), moreArguments_of_ne (by rintro ⟨⟩)]
      exact .ok [] h
    by_cases hcomma : t = .op ','
    · subst hcomma
      cases fuel' with
      | zero => exact absurd hfuel' (Nat.not_succ_le_zero _)
      | succ fuel' =>
        rw [List.length_cons] at hfuel hfuel'
        refine (hr.expression (hbehind (endsOperand_op (by decide)))).bind
          fun e rest rest' hread hread' hrest => ?_
        have hlt := hs.expression_shortens hread
        have hlt' := hs.expression_shortens hread'
        refine (ih (by omega) (by omega) hrest).bind fun es _ _ _ _ hrest => ?_
        exact .ok (e :: es) hrest
    · rw [moreArguments_of_ne (head?_ne hcomma us), moreArguments_of_ne (head?_ne hcomma us')]
      exact .ok [] h

/-- Arguments with parentheses end with one, and those without end with a factor, so the place may
be right behind either. -/
theorem arguments (hs : r.Sound library n) (hr : r.SameOutcomes library v)
    (h : Alike library v ts ts') :
    SameOutcome (AlikeBehind library v) (Grammar.arguments r ts) (Grammar.arguments r ts') := by
  rcases h.cases with ⟨rfl, rfl⟩ | ⟨t, us, us', rfl, rfl, -, hbehind⟩
  · exact .refl .same _
  by_cases hparen : t = .op '('
  · subst hparen
    have hinside := hbehind (endsOperand_op (by decide))
    rcases hinside.cases with ⟨rfl, rfl⟩ | ⟨t, us, us', rfl, rfl, hafter, -⟩
    · exact .refl .same _
    by_cases hclose : t = .op ')'
    · subst hclose
      exact .ok [] hafter
    · rw [arguments_of_ne hclose, arguments_of_ne hclose]
      refine (hr.expression hinside).bind fun e rest rest' hread hread' hrest => ?_
      refine (hr.moreArguments hs (Nat.le_refl _) (Nat.le_refl _) hrest).bind
        fun es _ _ _ _ hrest => ?_
      refine (closing hrest).bind fun _ _ _ _ _ hrest => ?_
      exact .ok (e :: es) hrest
  · rw [arguments_of_head_ne (head?_ne hparen us), arguments_of_head_ne (head?_ne hparen us')]
    exact (hr.factor h).bind fun e _ _ _ _ hrest => .ok [e] hrest

/-- An atom may end with what ends an operand, so the place may be right behind it. -/
theorem atom (hs : r.Sound library n) (hr : r.SameOutcomes library v)
    (h : Alike library v ts ts') :
    SameOutcome (AlikeBehind library v) (Grammar.atom library r ts)
      (Grammar.atom library r ts') := by
  rcases h.cases with ⟨rfl, rfl⟩ | ⟨t, us, us', rfl, rfl, hafter, hbehind⟩
  · exact .error .incomplete
  cases t with
  | numeral text => exact .ok (Expr.numeral text) hafter
  | word text =>
    rw [Grammar.atom, Grammar.atom]
    by_cases hfunction : library.contains text = true
    · -- A function ends no operand, so its arguments still have to come.
      have hends : (Token.word text).endsOperand library = false := by
        rw [Token.endsOperand, hfunction]
        rfl
      rw [if_pos hfunction, if_pos hfunction]
      exact (hr.arguments hs (hbehind hends)).bind fun es _ _ _ _ hrest =>
        .ok (Expr.call text es) hrest
    · rw [if_neg hfunction, if_neg hfunction]
      exact .ok (Expr.name text) hafter
  | op c =>
    rw [Grammar.atom, Grammar.atom]
    by_cases hparen : c = '('
    · subst hparen
      rw [if_pos rfl, if_pos rfl]
      refine (hr.expression (hbehind (endsOperand_op (by decide)))).bind
        fun e _ _ _ _ hrest => ?_
      exact (closing hrest).bind fun _ _ _ _ _ hrest => .ok e hrest
    · rw [if_neg hparen, if_neg hparen]
      exact .error _

/-- What is behind the base of a power. At the place, neither reading sees a `^`. -/
theorem raised (hv : v.head?.any Token.opensAtom = true) (hr : r.SameOutcomes library v)
    (base : Expr) (h : AlikeBehind library v ts ts') :
    SameOutcome (AlikeBehind library v) (Grammar.raised r base ts)
      (Grammar.raised r base ts') := by
  cases h with
  | boundary =>
    -- What begins an atom is no `^` either.
    have hcaret : v.head? ≠ some (.op '^') := by
      intro hhead
      rw [hhead] at hv
      exact absurd hv (by decide)
    rw [raised_of_ne (head?_ne (by decide) v), raised_of_ne hcaret]
    exact .ok base .boundary
  | alike h =>
    rcases h.cases with ⟨rfl, rfl⟩ | ⟨t, us, us', rfl, rfl, -, hbehind⟩
    · exact .refl .same _
    by_cases hcaret : t = .op '^'
    · subst hcaret
      exact (hr.factor (hbehind (endsOperand_op (by decide)))).bind fun exponent _ _ _ _ hrest =>
        .ok (Expr.binary .pow base exponent) hrest
    · rw [raised_of_ne (head?_ne hcaret us), raised_of_ne (head?_ne hcaret us')]
      exact .ok base (.alike h)

theorem power (hv : v.head?.any Token.opensAtom = true) (hs : r.Sound library n)
    (hr : r.SameOutcomes library v) (h : Alike library v ts ts') :
    SameOutcome (AlikeBehind library v) (Grammar.power library r ts)
      (Grammar.power library r ts') := by
  rw [power_eq, power_eq]
  exact (hr.atom hs h).bind fun base _ _ _ _ hrest => hr.raised hv base hrest

/-- A factor. A sign ends no operand, so the place is not behind it. -/
theorem factor_succ (hv : v.head?.any Token.opensAtom = true) (hs : r.Sound library n)
    (hr : r.SameOutcomes library v) (h : Alike library v ts ts') :
    SameOutcome (AlikeBehind library v) (Grammar.factor library r ts)
      (Grammar.factor library r ts') := by
  rcases h.cases with ⟨rfl, rfl⟩ | ⟨t, us, us', rfl, rfl, -, hbehind⟩
  · exact .refl .same _
  by_cases hsign : ∃ op : UnaryOp, t = op.token
  · obtain ⟨op, rfl⟩ := hsign
    have hends : op.token.endsOperand library = false := by cases op <;> rfl
    rw [factor_sign, factor_sign]
    exact (hr.factor (hbehind hends)).bind fun e _ _ _ _ hrest => .ok (Expr.unary op e) hrest
  · rw [factor_of_ne hsign, factor_of_ne hsign]
    exact hr.power hv hs h

/-- What is behind the target of an assignment, which is a sum and does not end at the place. -/
theorem assigned (hr : r.SameOutcomes library v) (left : Expr) (h : Alike library v ts ts') :
    SameOutcome (Alike library v) (Grammar.assigned r left ts) (Grammar.assigned r left ts') := by
  rcases h.cases with ⟨rfl, rfl⟩ | ⟨t, us, us', rfl, rfl, -, hbehind⟩
  · exact .refl .same _
  by_cases hassign : t = .op '='
  · subst hassign
    exact (hr.expression (hbehind (endsOperand_op (by decide)))).bind fun right _ _ _ _ hrest =>
      .ok (Expr.assign left right) hrest
  · rw [assigned_of_ne (head?_ne hassign us), assigned_of_ne (head?_ne hassign us')]
    exact .ok left h

theorem expression_succ (hv : v.head?.any Token.opensAtom = true) (hs : r.Sound library n)
    (hr : r.SameOutcomes library v) (h : Alike library v ts ts') :
    SameOutcome (Alike library v) (Grammar.expression r ts) (Grammar.expression r ts') := by
  rw [expression_eq, expression_eq]
  exact (hr.sum hv hs h).bind fun left _ _ _ _ hrest => hr.assigned left hrest

end Rules.SameOutcomes

/-- All rules do the same, by induction on how many of them may be open. Where there are too many in
one reading, there are in the other. -/
theorem rules_sameOutcomes {v : List Token} (library : Library)
    (hv : v.head?.any Token.opensAtom = true) (n : Nat) :
    (rules library n).SameOutcomes library v := by
  induction n with
  | zero => exact ⟨fun _ => .error .tooDeep, fun _ => .error .tooDeep⟩
  | succ n ih =>
    have hs := rules_sound library n
    exact ⟨ih.expression_succ hv hs, ih.factor_succ hv hs⟩

end Grammar

namespace Expr

open Grammar

/-- **Side by side is multiplied.** Behind the end of an operand and before the beginning of another
one, a `*` may stand or not: the tokens are read as the same expression, or refused for the same
reason. This holds wherever the place is, in parentheses, arguments, exponents or behind signs, and
also where the tokens are no expression. -/
theorem ofTokens_juxtaposed (library : Library) {u v : List Token}
    (hu : u.getLast?.any (Token.endsOperand library) = true)
    (hv : v.head?.any Token.opensAtom = true) (hlength : u.length + v.length < maxTokens) :
    ofTokens library (u ++ [.op '*'] ++ v) = ofTokens library (u ++ v) := by
  have hshort : ¬maxTokens < (u ++ .op '*' :: v).length := by
    rw [List.length_append, List.length_cons]
    omega
  have hshort' : ¬maxTokens < (u ++ v).length := by
    rw [List.length_append]
    omega
  rw [List.append_assoc, List.singleton_append, ofTokens, ofTokens, if_neg hshort, if_neg hshort']
  have hread := (rules_sameOutcomes library hv maxNesting).expression (.before hu)
  generalize (rules library maxNesting).expression (u ++ .op '*' :: v) = x at hread ⊢
  generalize (rules library maxNesting).expression (u ++ v) = y at hread ⊢
  cases hread with
  | error fault => rfl
  | ok e hrest =>
    -- What is left begins with the same token in both, if anything is.
    rcases hrest.cases with ⟨rfl, rfl⟩ | ⟨t, us, us', rfl, rfl, -, -⟩
    · rfl
    · rfl

/-- The place is behind an exponent in the argument of a call without parentheses, and before a
variable that has a parenthesis behind it. -/
theorem ofTokens_juxtaposed_exponent :
    let u : List Token := [.word "sin", .word "x", .op '^', .numeral "2"]
    let v : List Token := [.word "y", .op '(', .numeral "3", .op ')']
    u.getLast?.any (Token.endsOperand .standard) = true ∧ v.head?.any Token.opensAtom = true ∧
      ofTokens .standard (u ++ [.op '*'] ++ v) = ofTokens .standard (u ++ v) ∧
      ofTokens .standard (u ++ v) = .ok (.binary .mul (.binary .mul
        (.call "sin" [.binary .pow (.name "x") (.numeral "2")]) (.name "y")) (.numeral "3")) := by
  intro u v
  have hu : u.getLast?.any (Token.endsOperand .standard) = true := rfl
  have hv : v.head?.any Token.opensAtom = true := rfl
  exact ⟨hu, hv, ofTokens_juxtaposed .standard hu hv (by decide), by rfl⟩

end Expr
end Reckoner
