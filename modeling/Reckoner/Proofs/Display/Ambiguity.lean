/-
Expressions with the same text.

Every operation is shown in parentheses, an assignment is not. So the text does not tell whether an
assignment is the target or the value of another one: `(a = b) = c` is shown like `a = b = c`. This
is all that gets lost. Two expressions are shown alike exactly if they are the same once all their
assignments nest to the right.

The tokens of an expression can be told from what stands behind them: behind an operand there is never
a parenthesis that opens, and behind a whole expression no equals sign either.
-/
import Reckoner.Proofs.Display.Tokens
import Reckoner.Proofs.Lexer.Exactness

set_option autoImplicit false

namespace Reckoner.Expr

/-! ## Assignments that nest to the right -/

/-- The expressions in which the target of no assignment is an assignment. -/
inductive RightNested : Expr → Prop where
  | numeral (text : String) : RightNested (.numeral text)
  | name (text : String) : RightNested (.name text)
  | unary (op : UnaryOp) {operand : Expr} (hoperand : RightNested operand) :
    RightNested (.unary op operand)
  | binary (op : BinaryOp) {left right : Expr} (hleft : RightNested left)
    (hright : RightNested right) : RightNested (.binary op left right)
  | call (function : String) {arguments : List Expr}
    (harguments : ∀ e ∈ arguments, RightNested e) : RightNested (.call function arguments)
  | assign {target value : Expr} (hassign : target.isAssignment = false)
    (htarget : RightNested target) (hvalue : RightNested value) :
    RightNested (.assign target value)

/-- Assigns a value to a target. If that is an assignment, its own value takes the value first. -/
def assignRight : Expr → Expr → Expr
  | .assign target middle, value => .assign target (middle.assignRight value)
  | target, value => .assign target value

mutual

/-- The expression with all assignments nested to the right. -/
def nestRight : Expr → Expr
  | .numeral text => .numeral text
  | .name text => .name text
  | .unary op operand => .unary op operand.nestRight
  | .binary op left right => .binary op left.nestRight right.nestRight
  | .call function arguments => .call function (nestRightAll arguments)
  | .assign target value => target.nestRight.assignRight value.nestRight

/-- A list of expressions with all assignments nested to the right. -/
def nestRightAll : List Expr → List Expr
  | [] => []
  | e :: es => e.nestRight :: nestRightAll es

end

theorem nestRightAll_eq_map (es : List Expr) : nestRightAll es = es.map nestRight := by
  induction es with
  | nil => rfl
  | cons e es ih => rw [nestRightAll, ih, List.map_cons]

/-- A target that is no assignment takes the value itself. -/
theorem assignRight_of_operand {target : Expr} (h : target.isAssignment = false) (value : Expr) :
    target.assignRight value = .assign target value := by
  cases target with
  | assign _ _ => exact Bool.noConfusion h
  | numeral _ | name _ | unary _ _ | binary _ _ _ | call _ _ => rfl

/-- What is assigned nests to the right, if the target and the value do. -/
theorem RightNested.assignRight {target value : Expr} (htarget : target.RightNested)
    (hvalue : value.RightNested) : (target.assignRight value).RightNested := by
  induction htarget with
  | assign hassign htarget _ _ ih => exact .assign hassign htarget ih
  | numeral text => exact .assign rfl (.numeral text) hvalue
  | name text => exact .assign rfl (.name text) hvalue
  | unary op hoperand => exact .assign rfl (.unary op hoperand) hvalue
  | binary op hleft hright => exact .assign rfl (.binary op hleft hright) hvalue
  | call function harguments => exact .assign rfl (.call function harguments) hvalue

/-- All assignments nest to the right then. -/
theorem rightNested_nestRight (e : Expr) : e.nestRight.RightNested := by
  induction e with
  | numeral text => exact .numeral text
  | name text => exact .name text
  | unary op operand ih => exact .unary op ih
  | binary op left right ihl ihr => exact .binary op ihl ihr
  | call function arguments ih =>
    rw [nestRight, nestRightAll_eq_map]
    exact .call function (List.forall_mem_map.mpr ih)
  | assign target value iht ihv => exact iht.assignRight ihv

/-- Where they do already, nothing is changed. -/
theorem RightNested.nestRight_eq {e : Expr} (h : e.RightNested) : e.nestRight = e := by
  induction h with
  | numeral _ | name _ => rfl
  | unary op _ ih => rw [nestRight, ih]
  | binary op _ _ ihl ihr => rw [nestRight, ihl, ihr]
  | call function _ ih =>
    rw [nestRight, nestRightAll_eq_map, List.map_congr_left ih, List.map_id']
  | assign hassign _ _ iht ihv => rw [nestRight, iht, ihv, assignRight_of_operand hassign]

/-! ## What is shown of them -/

/-- Nor is the text, since an assignment is shown without parentheses. -/
theorem render_assignRight (target value : Expr) :
    (target.assignRight value).render = (assign target value).render := by
  induction target with
  | assign target middle _ ih =>
    rw [assignRight, render, ih, render, render, render]
    simp only [String.append_assoc]
  | numeral _ | name _ | unary _ _ _ | binary _ _ _ _ _ | call _ _ _ => rfl

/-- Nesting assignments to the right changes nothing in the text. -/
theorem render_nestRight (e : Expr) : e.nestRight.render = e.render := by
  induction e with
  | numeral _ | name _ => rfl
  | unary op operand ih => rw [nestRight, render, render, ih]
  | binary op left right ihl ihr => rw [nestRight, render, render, ihl, ihr]
  | call function arguments ih =>
    have hshown : arguments.map (render ∘ nestRight) = arguments.map render :=
      List.map_congr_left ih
    rw [nestRight, render, render, nestRightAll_eq_map, renderAll_eq_map, renderAll_eq_map,
      List.map_map, hshown]
  | assign target value iht ihv => rw [nestRight, render_assignRight, render, render, iht, ihv]

section SpelledBy

variable {library : Library} {p : Token → Prop}

/-- No token is added by it. -/
theorem SpelledBy.assignRight {target value : Expr} (htarget : target.SpelledBy library p)
    (hvalue : value.SpelledBy library p) : (target.assignRight value).SpelledBy library p := by
  induction htarget with
  | assign htarget _ _ ih => exact .assign htarget ih
  | numeral htoken => exact .assign (.numeral htoken) hvalue
  | name htoken hname => exact .assign (.name htoken hname) hvalue
  | unary op hoperand => exact .assign (.unary op hoperand) hvalue
  | binary op hleft hright => exact .assign (.binary op hleft hright) hvalue
  | call htoken hfunction harguments => exact .assign (.call htoken hfunction harguments) hvalue

theorem SpelledBy.nestRight {e : Expr} (h : e.SpelledBy library p) :
    e.nestRight.SpelledBy library p := by
  induction h with
  | numeral htoken => exact .numeral htoken
  | name htoken hname => exact .name htoken hname
  | unary op _ ih => exact .unary op ih
  | binary op _ _ ihl ihr => exact .binary op ihl ihr
  | call htoken hfunction _ ih =>
    rw [Expr.nestRight, nestRightAll_eq_map]
    exact .call htoken hfunction (List.forall_mem_map.mpr ih)
  | assign _ _ iht ihv => exact iht.assignRight ihv

end SpelledBy

/-! ## Reading the tokens of an expression -/

/-- Whether an operand is over before these tokens: what opens a parenthesis would be its call. -/
def EndsOperand (rest : List Token) : Prop :=
  rest.head? ≠ some (.op '(')

/-- Whether a whole expression is over before these tokens, so that no value of an assignment
follows either. -/
def EndsWhole (rest : List Token) : Prop :=
  EndsOperand rest ∧ rest.head? ≠ some (.op '=')

theorem EndsWhole.nil : EndsWhole [] :=
  ⟨by rintro ⟨⟩, by rintro ⟨⟩⟩

theorem EndsWhole.closing (rest : List Token) : EndsWhole (.op ')' :: rest) :=
  ⟨by rintro ⟨⟩, by rintro ⟨⟩⟩

theorem EndsWhole.operator (op : BinaryOp) (rest : List Token) : EndsWhole (op.token :: rest) := by
  cases op <;> exact ⟨by rintro ⟨⟩, by rintro ⟨⟩⟩

/-- Behind an argument there is a comma, or the parenthesis that closes the call. -/
theorem EndsWhole.moreArguments (es : List Expr) (rest : List Token) :
    EndsWhole (moreArgumentTokens es ++ .op ')' :: rest) := by
  cases es with
  | nil => exact .closing rest
  | cons e es => exact ⟨by rintro ⟨⟩, by rintro ⟨⟩⟩

/-- No other operand with these tokens at the front is shown than this one. -/
def OperandDetermined (e : Expr) : Prop :=
  ∀ {e' : Expr} {rest rest' : List Token}, e'.RightNested → e'.isAssignment = false →
    EndsOperand rest → EndsOperand rest' → e.tokens ++ rest = e'.tokens ++ rest' →
      e = e' ∧ rest = rest'

/-- No other expression with these tokens at the front is shown than this one. -/
def WholeDetermined (e : Expr) : Prop :=
  ∀ {e' : Expr} {rest rest' : List Token}, e'.RightNested → EndsWhole rest → EndsWhole rest' →
    e.tokens ++ rest = e'.tokens ++ rest' → e = e' ∧ rest = rest'

/-- Every expression begins like an atom. -/
theorem exists_tokens (e : Expr) : ∃ t ts, e.tokens = t :: ts ∧ t.opensAtom = true := by
  induction e with
  | numeral text => exact ⟨_, _, rfl, rfl⟩
  | name text => exact ⟨_, _, rfl, rfl⟩
  | unary op operand _ => exact ⟨_, _, rfl, rfl⟩
  | binary op left right _ _ => exact ⟨_, _, rfl, rfl⟩
  | call function arguments _ => exact ⟨_, _, rfl, rfl⟩
  | assign target value iht _ =>
    obtain ⟨t, ts, htokens, hopens⟩ := iht
    exact ⟨t, _, by rw [tokens, htokens, List.cons_append], hopens⟩

section Determined

variable {rest rest' : List Token}

/-- An operand is no assignment to a target, since the sign of that would stand behind it. -/
theorem OperandDetermined.whole {e : Expr} (h : e.OperandDetermined) : e.WholeDetermined := by
  intro e' rest rest' he' hrest hrest' htokens
  cases he' with
  | @assign target value hassign htarget hvalue =>
    rw [tokens, List.append_assoc, List.cons_append] at htokens
    obtain ⟨-, rfl⟩ := h htarget hassign hrest.1 (by rintro ⟨⟩) htokens
    exact absurd rfl hrest.2
  | numeral text => exact h (.numeral text) rfl hrest.1 hrest'.1 htokens
  | name text => exact h (.name text) rfl hrest.1 hrest'.1 htokens
  | unary op hoperand => exact h (.unary op hoperand) rfl hrest.1 hrest'.1 htokens
  | binary op hleft hright => exact h (.binary op hleft hright) rfl hrest.1 hrest'.1 htokens
  | call function harguments =>
    exact h (.call function harguments) rfl hrest.1 hrest'.1 htokens

/-- Further arguments are told apart one after the other. -/
theorem determined_moreArguments {es es' : List Expr} (hes : ∀ e ∈ es, e.WholeDetermined)
    (hes' : ∀ e ∈ es', e.RightNested)
    (h : moreArgumentTokens es ++ .op ')' :: rest = moreArgumentTokens es' ++ .op ')' :: rest') :
    es = es' ∧ rest = rest' := by
  induction es generalizing es' with
  | nil =>
    cases es' with
    | nil => exact ⟨rfl, (List.cons.inj h).2⟩
    | cons e' es' => exact absurd (List.cons.inj h).1 (by rintro ⟨⟩)
  | cons e es ih =>
    cases es' with
    | nil => exact absurd (List.cons.inj h).1 (by rintro ⟨⟩)
    | cons e' es' =>
      obtain ⟨he, hbehind⟩ := List.forall_mem_cons.mp hes
      obtain ⟨he', hbehind'⟩ := List.forall_mem_cons.mp hes'
      simp only [moreArgumentTokens, List.cons_append, List.append_assoc, List.cons.injEq,
        true_and] at h
      obtain ⟨rfl, hmore⟩ := he he' (.moreArguments _ _) (.moreArguments _ _) h
      obtain ⟨rfl, hrest⟩ := ih hbehind hbehind' hmore
      exact ⟨rfl, hrest⟩

/-- So are all arguments of a call. -/
theorem determined_arguments {es es' : List Expr} (hes : ∀ e ∈ es, e.WholeDetermined)
    (hes' : ∀ e ∈ es', e.RightNested)
    (h : argumentTokens es ++ .op ')' :: rest = argumentTokens es' ++ .op ')' :: rest') :
    es = es' ∧ rest = rest' := by
  -- A parenthesis that closes is not the first token of an argument.
  have hnone : ∀ (e : Expr) (es : List Expr) (rest rest' : List Token),
      .op ')' :: rest ≠ argumentTokens (e :: es) ++ .op ')' :: rest' := by
    intro e es rest rest' h
    obtain ⟨t, ts, htokens, hopens⟩ := e.exists_tokens
    rw [argumentTokens, htokens] at h
    rw [← (List.cons.inj h).1] at hopens
    exact Bool.false_ne_true hopens
  cases es with
  | nil =>
    cases es' with
    | nil => exact ⟨rfl, (List.cons.inj h).2⟩
    | cons e' es' => exact absurd h (hnone e' es' rest rest')
  | cons e es =>
    cases es' with
    | nil => exact absurd h.symm (hnone e es rest' rest)
    | cons e' es' =>
      obtain ⟨he, hbehind⟩ := List.forall_mem_cons.mp hes
      obtain ⟨he', hbehind'⟩ := List.forall_mem_cons.mp hes'
      simp only [argumentTokens, List.append_assoc] at h
      obtain ⟨rfl, hmore⟩ := he he' (.moreArguments _ _) (.moreArguments _ _) h
      obtain ⟨rfl, hrest⟩ := determined_moreArguments hbehind hbehind' hmore
      exact ⟨rfl, hrest⟩

/-- A numeral is told by its token, with which no other operand begins. -/
theorem determined_numeral (text : String) : (numeral text).OperandDetermined := by
  intro e' rest rest' he' hassign hrest hrest' h
  cases e' with
  | numeral text' =>
    obtain ⟨htext, hbehind⟩ := List.cons.inj h
    exact ⟨congrArg numeral (Token.numeral.inj htext), hbehind⟩
  | name _ | unary _ _ | binary _ _ _ | call _ _ => exact absurd (List.cons.inj h).1 (by rintro ⟨⟩)
  | assign _ _ => exact Bool.noConfusion hassign

/-- Behind a name no parenthesis opens, behind the name of a function one does. -/
theorem determined_name (text : String) : (name text).OperandDetermined := by
  intro e' rest rest' he' hassign hrest hrest' h
  cases e' with
  | name text' =>
    obtain ⟨htext, hbehind⟩ := List.cons.inj h
    exact ⟨congrArg name (Token.word.inj htext), hbehind⟩
  | call function arguments =>
    obtain ⟨-, rfl⟩ := List.cons.inj h
    exact absurd rfl hrest
  | numeral _ | unary _ _ | binary _ _ _ => exact absurd (List.cons.inj h).1 (by rintro ⟨⟩)
  | assign _ _ => exact Bool.noConfusion hassign

/-- Behind the parenthesis of a sign stands the sign, behind that of an operation an operand. -/
theorem sign_ne_operation (op : UnaryOp) (op' : BinaryOp) (operand left right : Expr) :
    (unary op operand).tokens ++ rest ≠ (binary op' left right).tokens ++ rest' := by
  intro h
  obtain ⟨t, ts, htokens, hopens⟩ := left.exists_tokens
  simp only [tokens, htokens, List.cons_append, List.cons.injEq, true_and] at h
  rw [← h.1, Grammar.opensAtom_sign_token] at hopens
  exact Bool.false_ne_true hopens

/-- A sign and its operand are told apart from others by the sign, and the operand ends before the
parenthesis. -/
theorem determined_unary (op : UnaryOp) {operand : Expr} (ih : operand.WholeDetermined) :
    (unary op operand).OperandDetermined := by
  intro e' rest rest' he' hassign hrest hrest' h
  cases he' with
  | @unary op' operand' hoperand' =>
    simp only [tokens, List.cons_append, List.append_assoc, List.nil_append, List.cons.injEq,
      true_and] at h
    obtain rfl := Grammar.sign_token_inj h.1
    obtain ⟨rfl, hbehind⟩ := ih hoperand' (.closing _) (.closing _) h.2
    exact ⟨rfl, (List.cons.inj hbehind).2⟩
  | binary op' _ _ => exact absurd h (sign_ne_operation op op' _ _ _)
  | numeral _ | name _ | call _ _ => exact absurd (List.cons.inj h).1 (by rintro ⟨⟩)
  | assign _ _ _ => exact Bool.noConfusion hassign

/-- An operation is cut where its left operand ends, at the operator, and where its right one ends,
at the parenthesis. -/
theorem determined_binary (op : BinaryOp) {left right : Expr} (ihl : left.WholeDetermined)
    (ihr : right.WholeDetermined) : (binary op left right).OperandDetermined := by
  intro e' rest rest' he' hassign hrest hrest' h
  cases he' with
  | @binary op' left' right' hleft' hright' =>
    simp only [tokens, List.cons_append, List.append_assoc, List.nil_append, List.cons.injEq,
      true_and] at h
    obtain ⟨rfl, hop⟩ := ihl hleft' (.operator _ _) (.operator _ _) h
    obtain ⟨htoken, hright⟩ := List.cons.inj hop
    obtain rfl := Grammar.token_inj htoken
    obtain ⟨rfl, hbehind⟩ := ihr hright' (.closing _) (.closing _) hright
    exact ⟨rfl, (List.cons.inj hbehind).2⟩
  | unary op' _ => exact absurd h.symm (sign_ne_operation op' op _ _ _)
  | numeral _ | name _ | call _ _ => exact absurd (List.cons.inj h).1 (by rintro ⟨⟩)
  | assign _ _ _ => exact Bool.noConfusion hassign

/-- Behind the name of a function there is a parenthesis, which tells it from a name. -/
theorem determined_call (function : String) {arguments : List Expr}
    (ih : ∀ e ∈ arguments, e.WholeDetermined) : (call function arguments).OperandDetermined := by
  intro e' rest rest' he' hassign hrest hrest' h
  cases he' with
  | @call function' arguments' harguments' =>
    simp only [tokens, List.cons_append, List.append_assoc, List.nil_append, List.cons.injEq,
      Token.word.injEq, true_and] at h
    obtain ⟨rfl, hbehind⟩ := h
    obtain ⟨rfl, hrest⟩ := determined_arguments ih harguments' hbehind
    exact ⟨rfl, hrest⟩
  | name text =>
    obtain ⟨-, rfl⟩ := List.cons.inj h
    exact absurd rfl hrest'
  | numeral _ | unary _ _ | binary _ _ _ => exact absurd (List.cons.inj h).1 (by rintro ⟨⟩)
  | assign _ _ _ => exact Bool.noConfusion hassign

/-- An assignment is cut at its first sign, since its target has none outside of parentheses. -/
theorem determined_assign {target value : Expr} (iht : target.OperandDetermined)
    (ihv : value.WholeDetermined) : (assign target value).WholeDetermined := by
  intro e' rest rest' he' hrest hrest' h
  rw [tokens, List.append_assoc, List.cons_append] at h
  by_cases hassign : e'.isAssignment = false
  · -- Behind the other one there would be the sign of the assignment.
    obtain ⟨-, rfl⟩ := iht he' hassign (by rintro ⟨⟩) hrest'.1 h
    exact absurd rfl hrest'.2
  · cases he' with
    | @assign target' value' hassign' htarget' hvalue' =>
      rw [tokens, List.append_assoc, List.cons_append] at h
      obtain ⟨rfl, hvalue⟩ := iht htarget' hassign' (by rintro ⟨⟩) (by rintro ⟨⟩) h
      obtain ⟨rfl, hbehind⟩ := ihv hvalue' hrest hrest' (List.cons.inj hvalue).2
      exact ⟨rfl, hbehind⟩
    | numeral _ | name _ | unary _ _ | binary _ _ _ | call _ _ => exact absurd rfl hassign

end Determined

theorem OperandDetermined.both {e : Expr} (h : e.OperandDetermined) :
    (e.isAssignment = false → e.OperandDetermined) ∧ e.WholeDetermined :=
  ⟨fun _ => h, h.whole⟩

/-- The tokens of an expression tell it from all others in which no assignment is a target. -/
theorem RightNested.determined {e : Expr} (he : e.RightNested) :
    (e.isAssignment = false → e.OperandDetermined) ∧ e.WholeDetermined := by
  induction he with
  | numeral text => exact OperandDetermined.both (determined_numeral text)
  | name text => exact OperandDetermined.both (determined_name text)
  | unary op _ ih => exact OperandDetermined.both (determined_unary op ih.2)
  | binary op _ _ ihl ihr => exact OperandDetermined.both (determined_binary op ihl.2 ihr.2)
  | call function _ ih =>
    exact OperandDetermined.both (determined_call function fun e he => (ih e he).2)
  | assign hassign _ _ iht ihv =>
    exact ⟨fun h => Bool.noConfusion h, determined_assign (iht.1 hassign) ihv.2⟩

/-- Expressions that nest to the right are the same if their tokens are. -/
theorem RightNested.eq_of_tokens {e e' : Expr} (he : e.RightNested) (he' : e'.RightNested)
    (h : e.tokens = e'.tokens) : e = e' :=
  (he.determined.2 he' .nil .nil (congrArg (· ++ []) h)).1

/-! ## Expressions that are shown alike -/

/-- The text of an expression has its tokens. So equal texts have equal tokens, and these tell the
expressions apart once they nest to the right. -/
theorem SpelledBy.shown_alike_iff {library library' : Library} {e e' : Expr}
    (he : e.SpelledBy library Token.IsShaped) (he' : e'.SpelledBy library' Token.IsShaped) :
    e.render = e'.render ↔ e.nestRight = e'.nestRight := by
  constructor
  · intro h
    rw [← e.render_nestRight, ← e'.render_nestRight] at h
    have htokens : e.nestRight.tokens = e'.nestRight.tokens := by
      refine Except.ok.inj (he.nestRight.ofText_render.symm.trans ?_)
      rw [h]
      exact he'.nestRight.ofText_render
    exact e.rightNested_nestRight.eq_of_tokens e'.rightNested_nestRight htokens
  · intro h
    rw [← e.render_nestRight, ← e'.render_nestRight, h]

/-- **Only the nesting of assignments is lost.** Two expressions that were read from tokens as the
lexer gives them have the same text exactly if they are the same once all assignments nest to the
right. So different ones in which no assignment is the target of another have different texts. -/
theorem render_eq_iff {library library' : Library} {ts ts' : List Token} {e e' : Expr}
    (hts : ∀ t ∈ ts, t.IsShaped) (hts' : ∀ t ∈ ts', t.IsShaped)
    (h : ofTokens library ts = .ok e) (h' : ofTokens library' ts' = .ok e') :
    (e.render = e'.render ↔ e.nestRight = e'.nestRight) ∧
      (e.RightNested → e'.RightNested → e ≠ e' → e.render ≠ e'.render) := by
  have hiff := (spelledBy_of_ofTokens h hts).shown_alike_iff (spelledBy_of_ofTokens h' hts')
  refine ⟨hiff, fun he he' hne hrender => hne ?_⟩
  have hnested := hiff.mp hrender
  rwa [he.nestRight_eq, he'.nestRight_eq] at hnested

/-- Two lines that differ in their parentheses only. Neither has an assignment to an assignment. -/
theorem render_eq_iff_precedence :
    let difference : Expr := .binary .sub (.name "b") (.name "c")
    let e : Expr := .assign (.name "a") (.binary .mul difference (.name "d"))
    let e' : Expr :=
      .assign (.name "a") (.binary .sub (.name "b") (.binary .mul (.name "c") (.name "d")))
    ∃ ts ts', Token.ofText "a = (b - c) * d" = .ok ts ∧ Token.ofText "a = b - c * d" = .ok ts' ∧
      ofTokens .standard ts = .ok e ∧ ofTokens .standard ts' = .ok e' ∧
      (e.render = e'.render ↔ e.nestRight = e'.nestRight) ∧ e.render ≠ e'.render := by
  intro difference e e'
  have htext : Token.ofText "a = (b - c) * d" = .ok [.word "a", .op '=', .op '(', .word "b",
      .op '-', .word "c", .op ')', .op '*', .word "d"] := by
    with_unfolding_all rfl
  have htext' : Token.ofText "a = b - c * d" = .ok [.word "a", .op '=', .word "b", .op '-',
      .word "c", .op '*', .word "d"] := by
    with_unfolding_all rfl
  have hread : ofTokens .standard [.word "a", .op '=', .op '(', .word "b", .op '-', .word "c",
      .op ')', .op '*', .word "d"] = .ok e := by rfl
  have hread' : ofTokens .standard [.word "a", .op '=', .word "b", .op '-', .word "c", .op '*',
      .word "d"] = .ok e' := by rfl
  have hnested : e.RightNested :=
    .assign rfl (.name _) (.binary _ (.binary _ (.name _) (.name _)) (.name _))
  have hnested' : e'.RightNested :=
    .assign rfl (.name _) (.binary _ (.name _) (.binary _ (.name _) (.name _)))
  have hne : e ≠ e' := fun h => absurd (Expr.assign.inj h).2 (by rintro ⟨⟩)
  obtain ⟨hiff, hdifferent⟩ := render_eq_iff
    (fun t ht => (Token.comesFrom_of_ofChars htext t ht).1)
    (fun t ht => (Token.comesFrom_of_ofChars htext' t ht).1) hread hread'
  exact ⟨_, _, htext, htext', hread, hread', hiff, hdifferent hnested hnested' hne⟩

/-- An assignment to an assignment, and an assignment of one, have the same text. -/
theorem same_text_of_assignments :
    let e : Expr := .assign (.assign (.name "a") (.name "b")) (.name "c")
    let e' : Expr := .assign (.name "a") (.assign (.name "b") (.name "c"))
    ∃ ts ts', Token.ofText "(a = b) = c" = .ok ts ∧ Token.ofText "a = b = c" = .ok ts' ∧
      ofTokens .standard ts = .ok e ∧ ofTokens .standard ts' = .ok e' ∧ e ≠ e' ∧
      e.render = e'.render := by
  intro e e'
  have htext : Token.ofText "(a = b) = c" = .ok [.op '(', .word "a", .op '=', .word "b", .op ')',
      .op '=', .word "c"] := by
    with_unfolding_all rfl
  have htext' : Token.ofText "a = b = c" = .ok [.word "a", .op '=', .word "b", .op '=',
      .word "c"] := by
    with_unfolding_all rfl
  have hne : e ≠ e' := fun h => absurd (Expr.assign.inj h).1 (by rintro ⟨⟩)
  exact ⟨_, _, htext, htext', by rfl, by rfl, hne, by decide⟩

end Reckoner.Expr
