/-
Every rule of the grammar makes progress, so the reader comes to an end.

What is proved of a task is that it ends as its phrase of the grammar says, however many tokens are
left and however many rules are open. The tasks that it sets are taken to end, if there is time for
them. What they need is bounded by the tokens that are left and, between tasks that are set at the same
place, by their order: a rule is set by the looser rules, and a loop before its operands. A task that is
set behind a token has one token less, which is worth more than any place in the order. Each rule takes
a token, so this holds of everything that stands behind a first part, the further rounds of a loop among
them.

Loops have no bound of their own here, unlike in the grammar, whose loops are given as much fuel as
there are tokens. That the two come to the same is part of what is proved.
-/
import Reckoner.Proofs.Grammar.Branches
import Reckoner.Proofs.Grammar.Reading

set_option autoImplicit false

namespace Reckoner.Grammar

/-! ## Phrases -/

/-- What a rule reads, given the rules inside. -/
def Rule.phrase (library : Library) (r : Rules) : Rule → Phrase Expr
  | .expression => r.expression
  | .assignment => Grammar.expression r
  | .chain .sum => Grammar.sum r
  | .chain .product => Grammar.product r
  | .factor => r.factor
  | .power => Grammar.power library r
  | .atom => Grammar.atom library r

/-- What links a chain, as the grammar looks for it. -/
def Chain.linkAhead? : Chain → List Token → Option (BinaryOp × List Token)
  | .sum => sumLink?
  | .product => productLink?

/-- What a task reads, given the rules inside. -/
def Task.phrase (library : Library) (r : Rules) : Task → Phrase Expr
  | .rule which => which.phrase library r
  | .call function => fun ts => do
    let (es, ts) ← Grammar.arguments r ts
    .ok (.call function es, ts)
  | .steps kind _ _ left => fun ts =>
    Grammar.chain (kind.operand.phrase library r) kind.linkAhead? ts.length left ts
  | .arguments function _ _ before => fun ts => do
    let (e, ts) ← r.expression ts
    let (es, ts) ← moreArguments r ts.length ts
    let ((), ts) ← closing ts
    .ok (.call function (before ++ e :: es), ts)

/-! ### Chains -/

section Chains

variable {library : Library} {n : Nat} {kind : Chain} {t : Token} {ts rest us : List Token}
  {op : BinaryOp} {e : Expr}

/-- Both kinds of chains are one definition of the grammar, with other operands and links. -/
theorem phrase_chain (library : Library) (r : Rules) (kind : Chain) :
    (Rule.chain kind).phrase library r =
      chained (kind.operand.phrase library r) kind.linkAhead? := by
  cases kind with
  | sum => rfl
  | product => rfl

theorem linkAhead?_nil (kind : Chain) : kind.linkAhead? [] = none := by
  cases kind with
  | sum => rfl
  | product => rfl

/-- The grammar finds the same links, by the next token alone. -/
theorem linkAhead?_cons (kind : Chain) (t : Token) (ts : List Token) :
    kind.linkAhead? (t :: ts) =
      (kind.link? t).map fun (op, taken) => (op, (t :: ts).drop taken) := by
  cases kind with
  | sum =>
    unfold Chain.linkAhead? sumLink? Chain.link?
    split <;> simp_all
  | product =>
    unfold Chain.linkAhead? productLink? Chain.link?
    split <;> simp_all

/-- A link takes the token that it is found by, or none. -/
theorem taken_le_of_link? {taken : Nat} (h : kind.link? t = some (op, taken)) : taken ≤ 1 := by
  unfold Chain.link? at h
  split at h
  all_goals first
    | exact absurd h.symm (Option.some_ne_none _)
    | obtain ⟨-, rfl⟩ := Prod.mk.inj (Option.some.inj h)
      decide

theorem linkAhead?_eq_some (h : kind.linkAhead? ts = some (op, us)) :
    ts ≠ [] ∧ us.length ≤ ts.length := by
  cases ts with
  | nil => exact absurd (h.symm.trans (linkAhead?_nil kind)) (Option.some_ne_none _)
  | cons t ts =>
    rw [linkAhead?_cons] at h
    obtain ⟨⟨op', taken⟩, -, heq⟩ := Option.map_eq_some_iff.mp h
    obtain ⟨-, rfl⟩ := Prod.mk.inj heq
    rw [List.length_drop]
    exact ⟨List.cons_ne_nil _ _, Nat.sub_le _ _⟩

/-- An operand takes a token, in both kinds of chains. -/
theorem operand_shortens (library : Library) (n : Nat) (kind : Chain) :
    Shortens (kind.operand.phrase library (rules library n)) := by
  cases kind with
  | sum => exact (rules_sound library n).product_shortens
  | product => exact (rules_sound library n).factor_shortens

/-- Behind a factor there is no `^`. -/
theorem head?_ne_power (h : (rules library n).factor ts = .ok (e, rest)) :
    rest.head? ≠ some (.op '^') := by
  intro hhead
  have hstops := ((rules_sound library n).factor h).2 _ hhead
  exact absurd hstops (by decide)

/-- Behind an operand a chain may look for its next link. -/
theorem head?_ne_power_of_operand
    (h : kind.operand.phrase library (rules library n) ts = .ok (e, rest)) :
    Loop.chain kind = .chain .product → rest.head? ≠ some (.op '^') := by
  rintro ⟨⟩
  exact head?_ne_power h

end Chains

/-! ### Signs -/

theorem sign?_token (op : UnaryOp) : sign? op.token = some op := by
  cases op with
  | negate => rfl
  | keep => rfl

theorem eq_token_of_sign? {t : Token} {op : UnaryOp} (h : sign? t = some op) : t = op.token := by
  unfold sign? at h
  split at h
  · obtain rfl := Option.some.inj h
    rfl
  · obtain rfl := Option.some.inj h
    rfl
  · exact absurd h.symm (Option.some_ne_none op)

/-! ### Calls -/

/-- The arguments in parentheses are those of the loop from its first round on. -/
theorem phrase_arguments_first (library : Library) (r : Rules) {ts : List Token}
    (h : ts.head? ≠ some (.op ')')) (function : String) (number start : Nat) :
    (Task.call function).phrase library r (.op '(' :: ts) =
      (Task.arguments function number start []).phrase library r ts := by
  have harguments : Grammar.arguments r (.op '(' :: ts) = (do
      let (e, rest) ← r.expression ts
      let (es, rest) ← moreArguments r rest.length rest
      let ((), rest) ← closing rest
      .ok (e :: es, rest)) := by
    cases ts with
    | nil => rfl
    | cons t ts =>
      refine arguments_of_ne ?_ ts
      rintro rfl
      exact h rfl
  unfold Task.phrase
  dsimp only
  rw [harguments]
  rcases r.expression ts with fault | ⟨e, rest⟩
  · rfl
  · dsimp only [bind, Except.bind]
    rcases moreArguments r rest.length rest with fault | ⟨es, rest'⟩
    · rfl
    · dsimp only
      rcases closing rest' with fault | ⟨⟨⟩, rest''⟩
      · rfl
      · rfl

/-- Behind a comma the loop goes on with one argument more. -/
theorem phrase_arguments_further (library : Library) (n : Nat) (ts : List Token) (e : Expr)
    (function : String) (number start : Nat) (before : List Expr) :
    (do
      let (es, rest) ← moreArguments (rules library n) (ts.length + 1) (.op ',' :: ts)
      let ((), rest) ← closing rest
      Except.ok (Expr.call function (before ++ e :: es), rest)) =
      (Task.arguments function number start (before ++ [e])).phrase library (rules library n)
        ts := by
  have hshort : Shortens (rules library n).expression := (rules_sound library n).expression_shortens
  unfold Task.phrase
  rw [moreArguments]
  dsimp only
  cases hread : (rules library n).expression ts with
  | error fault => rfl
  | ok read =>
    obtain ⟨e', rest⟩ := read
    dsimp only [bind, Except.bind]
    -- The argument has taken a token, so the fuel that is left does for the tokens that are left.
    rw [moreArguments_fuel hshort (Nat.le_of_lt (hshort hread)) (Nat.le_refl _)]
    rcases moreArguments (rules library n) rest.length rest with fault | ⟨es, rest'⟩
    · rfl
    · dsimp only
      rcases closing rest' with fault | ⟨⟨⟩, rest''⟩
      · rfl
      · dsimp only
        rw [List.append_assoc]
        rfl

/-- Without parentheses the argument is one factor. -/
theorem phrase_call_of_head_ne (library : Library) (r : Rules) {ts : List Token}
    (h : ts.head? ≠ some (.op '(')) (function : String) :
    (Task.call function).phrase library r ts =
      (do let (e, rest) ← r.factor ts; Except.ok (Expr.call function [e], rest)) := by
  unfold Task.phrase
  dsimp only
  rw [arguments_of_head_ne h]
  rcases r.factor ts with fault | read
  · rfl
  · rfl

/-! ### Rules that open -/

/-- While there is room, the rules of the grammar go on with one less to open. -/
theorem rules_of_depth (library : Library) {depth : Nat} (h : depth < maxNesting) :
    (rules library (maxNesting - depth)).expression =
        expression (rules library (maxNesting - (depth + 1))) ∧
      (rules library (maxNesting - depth)).factor =
        factor library (rules library (maxNesting - (depth + 1))) := by
  have hroom : maxNesting - depth = maxNesting - (depth + 1) + 1 := by omega
  rw [hroom]
  exact ⟨rfl, rfl⟩

/-- Without room the rules of the grammar fail. -/
theorem rules_of_depth_le (library : Library) {depth : Nat} (h : maxNesting ≤ depth)
    (ts : List Token) :
    (rules library (maxNesting - depth)).expression ts = .error .tooDeep ∧
      (rules library (maxNesting - depth)).factor ts = .error .tooDeep := by
  rw [Nat.sub_eq_zero_of_le h]
  exact ⟨rfl, rfl⟩

/-! ## Tasks -/

namespace Task

/-- The fewest tokens that a task takes. A chain may end at once. -/
def least : Task → Nat
  | .steps .. => 0
  | .rule _ | .call _ | .arguments .. => 1

/-- The place of a task among those that are set one by the other without a token between them. -/
def order : Task → Nat
  | .rule .atom => 0
  | .rule .power => 1
  | .rule .factor => 2
  | .rule (.chain .product) | .steps .product .. | .call _ => 3
  | .rule (.chain .sum) | .steps .sum .. => 4
  | .rule .assignment => 5
  | .rule .expression => 6
  | .arguments .. => 7

/-- What bounds the tasks inside one that is set at `c`. -/
def measure (tokens : List Token) (c : Cursor) (task : Task) : Nat :=
  8 * (tokens.length - c.position) + task.order

/-- A loop goes on only where one of its rounds may begin. -/
def Ready (tokens : List Token) (c : Cursor) : Task → Prop
  | .steps kind number start _ => RoundAt tokens (.chain kind) number start c.position
  | .arguments _ number start _ => RoundAt tokens .arguments number start c.position
  | .rule _ | .call _ => True

/-- How a task ends that is set at `c`: as its phrase says. -/
def Done (library : Library) (tokens : List Token) (c : Cursor) (task : Task) :
    Except SyntaxFault Expr → Cursor → Prop :=
  Reads tokens task.least c
    (task.phrase library (rules library (maxNesting - c.depth)) (tokens.drop c.position))

/-- A token is worth more than any place in the order. -/
theorem order_lt (task : Task) : task.order < 8 := by
  unfold order
  split <;> decide

end Task

/-- All tasks that there is time for are done. -/
def Performs (library : Library) (tokens : List Token) (clock : Nat)
    (perform : Task → Reader Expr) : Prop :=
  ∀ (task : Task) (c : Cursor), task.Ready tokens c → task.measure tokens c < clock →
    (perform task).Ends c (task.Done library tokens c)

namespace Performs

variable {library : Library} {tokens : List Token} {clock : Nat} {perform : Task → Reader Expr}
  {c there : Cursor} {outer : Task}

/-- A task that is set where the outer one was. -/
theorem here (h : Performs library tokens clock perform) (task : Task)
    (hclock : outer.measure tokens c ≤ clock) (hposition : there.position = c.position)
    (horder : task.order < outer.order) (hready : task.Ready tokens there) :
    (perform task).Ends there (task.Done library tokens there) := by
  refine h task there hready ?_
  unfold Task.measure at hclock ⊢
  omega

/-- A task that is set behind a token. -/
theorem behind (h : Performs library tokens clock perform) (task : Task)
    (hclock : outer.measure tokens c ≤ clock) (hposition : c.position < there.position)
    (hinside : there.position ≤ tokens.length) (hready : task.Ready tokens there) :
    (perform task).Ends there (task.Done library tokens there) := by
  have horder := task.order_lt
  refine h task there hready ?_
  unfold Task.measure at hclock ⊢
  omega

/-- An expression opens a rule, and sets an assignment at the same place. -/
theorem expression (h : Performs library tokens clock perform)
    (hclock : (Task.rule .expression).measure tokens c ≤ clock) :
    ((Task.rule .expression).body library tokens perform).Ends c
      ((Task.rule .expression).Done library tokens c) := by
  show Reader.Ends _ c (Reads tokens 1 c
    ((rules library (maxNesting - c.depth)).expression (tokens.drop c.position)))
  -- What the rules of the grammar have left to open is what the counter has left to the limit.
  rcases Nat.lt_or_ge c.depth maxNesting with hdepth | hdepth
  · rw [(rules_of_depth library hdepth).1]
    refine .nested hdepth fun opened hposition hopened => ?_
    rw [← hposition, ← hopened]
    exact h.here (.rule .assignment) hclock hposition (by decide) trivial
  · rw [(rules_of_depth_le library hdepth _).1]
    exact .tooDeep hdepth

/-- An assignment sets a sum at the same place, and an expression behind an `=`. -/
theorem assignment (h : Performs library tokens clock perform)
    (hclock : (Task.rule .assignment).measure tokens c ≤ clock) :
    ((Task.rule .assignment).body library tokens perform).Ends c
      ((Task.rule .assignment).Done library tokens c) := by
  show Reader.Ends _ c (Reads tokens 1 c
    (Grammar.expression (rules library (maxNesting - c.depth)) (tokens.drop c.position)))
  rw [expression_eq]
  refine .bind (m := 0) (h.here (.rule (.chain .sum)) hclock rfl (by decide) trivial)
    fun left after _ hmoves => ?_
  obtain ⟨hlt, -⟩ := hmoves.lt
  rw [← hmoves.depth]
  refine .sees (fun ts hdrop => ?_) fun hhead => ?_
  · rw [hdrop]
    obtain ⟨hposition, -⟩ := drop_eq_cons hdrop
    refine .pass (m := 1) hdrop (Nat.zero_le _) fun next hnext hdepth htail => ?_
    rw [← htail, ← hdepth]
    -- The loosest rule is set again, which is worth less than the tokens of the target.
    exact .bind (h.behind (.rule .expression) hclock (by omega) (by omega) trivial)
      fun right later _ _ => .pure _ rfl
  · dsimp only
    rw [assigned_of_ne hhead]
    exact .pure left rfl

/-- A chain sets its first operand at the same place, and its loop behind that. -/
theorem chain (h : Performs library tokens clock perform) {kind : Chain}
    (hclock : (Task.rule (.chain kind)).measure tokens c ≤ clock) :
    ((Task.rule (.chain kind)).body library tokens perform).Ends c
      ((Task.rule (.chain kind)).Done library tokens c) := by
  show Reader.Ends _ c (Reads tokens 1 c
    ((Rule.chain kind).phrase library (rules library (maxNesting - c.depth))
      (tokens.drop c.position)))
  have horder : (Task.rule kind.operand).order < (Task.rule (.chain kind)).order := by
    cases kind <;> decide
  rw [phrase_chain]
  refine .position (.bind (m := 0) (h.here (.rule kind.operand) hclock rfl horder trivial)
    fun left after hread hmoves => ?_)
  obtain ⟨hlt, hinside⟩ := hmoves.lt
  rw [← hmoves.depth]
  exact h.behind (.steps kind 1 c.position left) hclock hlt hinside
    ⟨hlt, hinside, head?_ne_power_of_operand hread⟩

/-- A round either ends the loop, or takes a link and an operand. The operand takes a token even where
the link takes none, so the next round begins behind a token more. -/
theorem steps (h : Performs library tokens clock perform) {kind : Chain} {number start : Nat}
    {left : Expr} (hready : (Task.steps kind number start left).Ready tokens c)
    (hclock : (Task.steps kind number start left).measure tokens c ≤ clock) :
    ((Task.steps kind number start left).body library tokens perform).Ends c
      ((Task.steps kind number start left).Done library tokens c) := by
  show Reader.Ends _ c (Reads tokens 0 c
    (Grammar.chain (kind.operand.phrase library (rules library (maxNesting - c.depth)))
      kind.linkAhead? (tokens.drop c.position).length left (tokens.drop c.position)))
  have horder : (Task.rule kind.operand).order < (Task.steps kind number start left).order := by
    cases kind with
    | sum => exact Nat.lt_succ_self 3
    | product => exact Nat.lt_succ_self 2
  have hstart := hready.advanced
  refine .round hready fun round hround hdepth => .peek ?_
  rw [← hround, ← hdepth]
  cases hdrop : tokens.drop round.position with
  | nil =>
    rw [chain_of_none (linkAhead?_nil kind)]
    exact .pure left hdrop
  | cons t ts =>
    obtain ⟨hposition, htail⟩ := drop_eq_cons hdrop
    rw [List.length_cons, Grammar.chain, linkAhead?_cons, List.head?_cons, Option.bind_some]
    cases hlink : kind.link? t with
    | none => exact .pure left hdrop
    | some link =>
      obtain ⟨op, taken⟩ := link
      have htaken := taken_le_of_link? hlink
      refine .move (m := 1) (by omega) (Nat.zero_le _) fun linked hlinked hdepth' => ?_
      dsimp only [Option.map_some]
      rw [← hdrop, List.drop_drop, ← hlinked, ← hdepth']
      have hoperand : (Task.rule kind.operand).measure tokens linked < clock := by
        unfold Task.measure at hclock ⊢
        omega
      refine .bind (m := 0) (h (.rule kind.operand) linked trivial hoperand)
        fun right after hread hmoves => ?_
      obtain ⟨hlt, hinside⟩ := hmoves.lt
      have hlength : (tokens.drop after.position).length ≤ ts.length := by
        rw [← htail, List.length_drop, List.length_drop]
        omega
      dsimp only
      -- The grammar has one round less for the rest of the chain, and no more tokens than rounds.
      rw [← hmoves.depth, chain_fuel (operand_shortens library _ kind) linkAhead?_eq_some hlength
        (Nat.le_refl _)]
      exact h.behind (.steps kind (number + 1) start _) hclock (by omega) hinside
        ⟨by omega, hinside, head?_ne_power_of_operand hread⟩

/-- A factor opens a rule, and sets a factor behind a sign, or a power at the same place. -/
theorem factor (h : Performs library tokens clock perform)
    (hclock : (Task.rule .factor).measure tokens c ≤ clock) :
    ((Task.rule .factor).body library tokens perform).Ends c
      ((Task.rule .factor).Done library tokens c) := by
  show Reader.Ends _ c (Reads tokens 1 c
    ((rules library (maxNesting - c.depth)).factor (tokens.drop c.position)))
  rcases Nat.lt_or_ge c.depth maxNesting with hdepth | hdepth
  · rw [(rules_of_depth library hdepth).2]
    refine .nested hdepth fun opened hposition hopened => .peek ?_
    have hpower : (perform (.rule .power)).Ends opened (Reads tokens 1 opened
        (Grammar.power library (rules library (maxNesting - opened.depth))
          (tokens.drop opened.position))) :=
      h.here (.rule .power) hclock hposition (by decide) trivial
    rw [← hposition, ← hopened]
    cases hdrop : tokens.drop opened.position with
    | nil =>
      rw [hdrop] at hpower
      exact hpower
    | cons t ts =>
      rw [List.head?_cons, Option.bind_some]
      cases hsign : sign? t with
      | none =>
        -- No sign is passed, so the power is set where the factor was.
        have hne : ¬∃ op : UnaryOp, t = op.token := by
          rintro ⟨op, rfl⟩
          exact Option.some_ne_none op ((sign?_token op).symm.trans hsign)
        rw [factor_of_ne hne, ← hdrop]
        exact hpower
      | some op =>
        obtain rfl := eq_token_of_sign? hsign
        obtain ⟨hinside, -⟩ := drop_eq_cons hdrop
        rw [factor_sign]
        refine .pass (m := 1) hdrop (Nat.le_refl _) fun next hnext hdepth htail => ?_
        rw [← htail, ← hdepth]
        exact .bind (h.behind (.rule .factor) hclock (by omega) (by omega) trivial)
          fun operand later _ _ => .pure _ rfl
  · rw [(rules_of_depth_le library hdepth _).2]
    exact .tooDeep hdepth

/-- A power sets an atom at the same place, and a factor behind a `^`. -/
theorem power (h : Performs library tokens clock perform)
    (hclock : (Task.rule .power).measure tokens c ≤ clock) :
    ((Task.rule .power).body library tokens perform).Ends c
      ((Task.rule .power).Done library tokens c) := by
  show Reader.Ends _ c (Reads tokens 1 c
    (Grammar.power library (rules library (maxNesting - c.depth)) (tokens.drop c.position)))
  rw [power_eq]
  refine .bind (m := 0) (h.here (.rule .atom) hclock rfl (by decide) trivial)
    fun base after _ hmoves => ?_
  obtain ⟨hlt, -⟩ := hmoves.lt
  rw [← hmoves.depth]
  refine .sees (fun ts hdrop => ?_) fun hhead => ?_
  · rw [hdrop]
    obtain ⟨hposition, -⟩ := drop_eq_cons hdrop
    refine .pass (m := 1) hdrop (Nat.zero_le _) fun next hnext hdepth htail => ?_
    rw [← htail, ← hdepth]
    exact .bind (h.behind (.rule .factor) hclock (by omega) (by omega) trivial)
      fun exponent later _ _ => .pure _ rfl
  · dsimp only
    rw [raised_of_ne hhead]
    exact .pure base rfl

/-- An atom takes its first token. Whatever it sets is behind that. -/
theorem atom (h : Performs library tokens clock perform)
    (hclock : (Task.rule .atom).measure tokens c ≤ clock) :
    ((Task.rule .atom).body library tokens perform).Ends c
      ((Task.rule .atom).Done library tokens c) := by
  show Reader.Ends _ c (Reads tokens 1 c
    (Grammar.atom library (rules library (maxNesting - c.depth)) (tokens.drop c.position)))
  refine .peek ?_
  cases hdrop : tokens.drop c.position with
  | nil => exact .fault _
  | cons t ts =>
    obtain ⟨hinside, -⟩ := drop_eq_cons hdrop
    refine .pass (m := 0) hdrop (Nat.le_refl _) fun next hnext hdepth htail => ?_
    rw [← hdepth]
    cases t with
    | numeral text => exact .pure _ htail
    | word text =>
      unfold Grammar.atom
      dsimp only
      split
      · rw [← htail]
        exact .mono (h.behind (.call text) hclock (by omega) (by omega) trivial) (Nat.zero_le _)
      · exact .pure _ htail
    | op ch =>
      unfold Grammar.atom
      dsimp only
      split
      · rw [← htail]
        refine .mono (.bind (m := 0)
          (h.behind (.rule .expression) hclock (by omega) (by omega) trivial)
          fun e after _ _ => ?_) (Nat.zero_le _)
        exact .mono (.bind .close fun _ later _ _ => .pure _ rfl) (Nat.zero_le _)
      · exact .fault _

/-- A call sets its arguments behind a parenthesis, or a factor at the same place. -/
theorem call (h : Performs library tokens clock perform) {function : String}
    (hclock : (Task.call function).measure tokens c ≤ clock) :
    ((Task.call function).body library tokens perform).Ends c
      ((Task.call function).Done library tokens c) := by
  unfold Task.Done
  refine .position (.sees (fun ts hdrop => ?_) fun hhead => ?_)
  · obtain ⟨hinside, -⟩ := drop_eq_cons hdrop
    rw [hdrop]
    refine .pass (m := 0) hdrop (Nat.le_refl _) fun next hnext hdepth htail => ?_
    rw [← hdepth, ← htail]
    refine .sees (fun ts' hdrop' => ?_) fun hhead' => ?_
    · -- The parenthesis is known to be there when it is closed.
      have hclose : (Reader.close tokens).Ends next
          (Reads tokens 1 next (closing (tokens.drop next.position))) := .close
      rw [hdrop'] at hclose ⊢
      show Reader.Ends _ next (Reads tokens 0 next
        (closing (.op ')' :: ts') >>= fun (_, rest) => Except.ok (Expr.call function [], rest)))
      exact .mono (.bind hclose fun _ later _ _ => .pure _ rfl) (Nat.zero_le _)
    · rw [phrase_arguments_first library _ hhead' function 1 c.position]
      exact .mono (h.behind (.arguments function 1 c.position []) hclock (by omega) (by omega)
        ⟨by omega, by omega, by rintro ⟨⟩⟩) (Nat.zero_le 1)
  · rw [phrase_call_of_head_ne library _ hhead]
    exact .bind (h.here (.rule .factor) hclock rfl (Nat.lt_succ_self 2) trivial)
      fun operand after _ _ => .pure _ rfl

/-- A round sets an argument at the same place, and the next round behind a comma. -/
theorem arguments (h : Performs library tokens clock perform) {function : String}
    {number start : Nat} {before : List Expr}
    (hready : (Task.arguments function number start before).Ready tokens c)
    (hclock : (Task.arguments function number start before).measure tokens c ≤ clock) :
    ((Task.arguments function number start before).body library tokens perform).Ends c
      ((Task.arguments function number start before).Done library tokens c) := by
  unfold Task.Done
  have hstart := hready.advanced
  refine .round hready fun round hround hdepth => ?_
  rw [← hround, ← hdepth]
  refine .bind (m := 0)
    (h.here (.rule .expression) hclock hround (Nat.lt_succ_self 6) trivial)
    fun e after _ hmoves => ?_
  obtain ⟨hlt, hinside⟩ := hmoves.lt
  rw [← hmoves.depth]
  dsimp only
  refine .sees (fun ts hdrop => ?_) fun hhead => ?_
  · obtain ⟨hposition, -⟩ := drop_eq_cons hdrop
    refine .pass (m := 1) hdrop (Nat.zero_le _) fun next hnext hdepth' htail => ?_
    rw [hdrop, List.length_cons,
      phrase_arguments_further library _ ts e function (number + 1) start before, ← htail,
      ← hdepth']
    exact h.behind (.arguments function (number + 1) start _) hclock (by omega) (by omega)
      ⟨by omega, by omega, by rintro ⟨⟩⟩
  · rw [moreArguments_of_ne hhead]
    exact .mono (.bind .close fun _ later _ _ => .pure _ rfl) (Nat.zero_le 1)

end Performs

/-! ## The reader -/

section Reader

variable (library : Library) (tokens : List Token) {clock : Nat}

/-- With time enough, every task ends as its phrase says. -/
theorem perform_performs (clock : Nat) :
    Performs library tokens clock (Task.perform library tokens clock) := by
  -- On the clock, of which a task leaves one less to the tasks that it sets.
  induction clock with
  | zero => exact fun task c _ hclock => absurd hclock (Nat.not_lt_zero _)
  | succ clock ih =>
    intro task c hready hclock
    have htime := Nat.le_of_lt_succ hclock
    cases task with
    | rule which =>
      cases which with
      | expression => exact ih.expression htime
      | assignment => exact ih.assignment htime
      | chain kind => exact ih.chain htime
      | factor => exact ih.factor htime
      | power => exact ih.power htime
      | atom => exact ih.atom htime
    | call function => exact ih.call htime
    | steps kind number start left => exact ih.steps hready htime
    | arguments function number start before => exact ih.arguments hready htime

/-- Every rule comes to an end, from any position and with any count of open rules. -/
theorem rule_ends (hclock : 8 * (tokens.length + 1) ≤ clock) (rule : Rule) (c : Cursor) :
    ((Task.rule rule).perform library tokens clock).Ends c
      ((Task.rule rule).Done library tokens c) := by
  refine perform_performs library tokens clock (.rule rule) c trivial ?_
  have horder := (Task.rule rule).order_lt
  unfold Task.measure
  omega

/-- The reader ends with what the grammar makes of the tokens. -/
theorem descend_ends (hclock : 8 * (tokens.length + 1) ≤ clock) :
    (descend library tokens clock).Ends ⟨0, 0, []⟩ fun outcome after =>
      outcome = Expr.ofTokens library tokens ∧ Orderly tokens maxNesting after.events := by
  unfold descend Expr.ofTokens
  split
  · exact ⟨_, _, rfl, rfl, .nil _ _⟩
  · obtain ⟨outcome, after, hrun, hreads⟩ :=
      rule_ends library tokens hclock .expression ⟨0, 0, []⟩
    obtain ⟨new, hnew, horderly⟩ := hreads.happens
    have hevents : Orderly tokens maxNesting after.events := by
      rw [hnew]
      exact horderly
    have hagrees : (rules library maxNesting).expression tokens =
        outcome.map fun e => (e, tokens.drop after.position) := hreads.agrees
    rw [hagrees]
    cases outcome with
    | error fault => exact ⟨.error fault, after, by rw [Reader.run_bind, hrun], rfl, hevents⟩
    | ok e =>
      refine .step hrun (.peek ?_)
      dsimp only [Except.map, bind, Except.bind]
      cases tokens.drop after.position with
      | nil => exact ⟨_, _, rfl, rfl, hevents⟩
      | cons t ts => exact ⟨_, _, rfl, rfl, hevents⟩

end Reader

/-- **Every rule makes progress, and the reader comes to an end.** From any position and with any count
of open rules, following a rule ends, and as the grammar says. If it succeeds, at least one token has
been taken, none behind the last one, and the count of open rules is as it was. Whether it succeeds or
not, no more rules have been open at once than there may be, and a loop has begun no more rounds, the
one that ends it among them, than tokens were left where its rule began. For all tokens the reader comes
to an end, with what they are read as. -/
theorem every_rule_advances (library : Library) (tokens : List Token) (clock : Nat)
    (hclock : 8 * (tokens.length + 1) ≤ clock) :
    (∀ (rule : Rule) (position depth : Nat), ∃ outcome after,
      ((Task.rule rule).perform library tokens clock).run ⟨position, depth, []⟩ =
          some (outcome, after) ∧
        rule.phrase library (rules library (maxNesting - depth)) (tokens.drop position) =
          outcome.map (fun e => (e, tokens.drop after.position)) ∧
        (∀ e, outcome = .ok e → position < after.position ∧ after.position ≤ tokens.length ∧
          after.depth = depth) ∧
        (∀ before, before <+: after.events →
          before.count .enter ≤ before.count .leave + (maxNesting - depth)) ∧
        ∀ loop number start here, .round loop number start here ∈ after.events →
          start + number ≤ here ∧ here ≤ tokens.length) ∧
      ∃ after, (descend library tokens clock).run ⟨0, 0, []⟩ =
          some (Expr.ofTokens library tokens, after) ∧
        ∀ before, before <+: after.events →
          before.count .enter ≤ before.count .leave + 128 := by
  constructor
  · intro rule position depth
    obtain ⟨outcome, after, hrun, hreads⟩ :=
      rule_ends library tokens hclock rule ⟨position, depth, []⟩
    obtain ⟨new, rfl, horderly⟩ := hreads.happens
    refine ⟨outcome, after, hrun, hreads.agrees, fun e he => ?_, horderly.nested, ?_⟩
    · have hmoves : Moves tokens 1 ⟨position, depth, []⟩ after := hreads.moves e he
      exact ⟨hmoves.lt.1, hmoves.lt.2, hmoves.depth⟩
    · intro loop number start here hround
      have hround := horderly.rounds loop number start here hround
      exact ⟨hround.advanced, hround.inside⟩
  · obtain ⟨outcome, after, hrun, rfl, horderly⟩ := descend_ends library tokens hclock
    exact ⟨after, hrun, horderly.nested⟩

/-- Two factors side by side, behind a parenthesis, with 125 rules open. With the sign in the exponent
there are three more, which is as many as there may be. -/
theorem every_rule_advances_juxtaposed :
    let tokens : List Token :=
      [.op ')', .numeral "2", .word "x", .op '^', .op '-', .numeral "3"]
    let e : Expr :=
      .binary .mul (.numeral "2") (.binary .pow (.name "x") (.unary .negate (.numeral "3")))
    8 * (tokens.length + 1) ≤ 56 ∧ ∃ after,
      ((Task.rule (.chain .product)).perform .standard tokens 56).run ⟨1, 125, []⟩ =
          some (.ok e, after) ∧
        1 < after.position ∧ after.position ≤ 6 ∧ after.depth = 125 ∧
        ∀ before, before <+: after.events → before.count .enter ≤ before.count .leave + 3 := by
  intro tokens e
  have htime : 8 * (tokens.length + 1) ≤ 56 := by decide
  obtain ⟨outcome, after, hrun, hphrase, hmoves, hnested, -⟩ :=
    (every_rule_advances .standard tokens 56 htime).1 (.chain .product) 1 125
  have hread : (Rule.chain .product).phrase .standard (rules .standard (maxNesting - 125))
      (tokens.drop 1) = .ok (e, []) := rfl
  obtain ⟨e', rfl, hpair⟩ := map_eq_ok (hphrase.symm.trans hread)
  obtain rfl : e' = e := (Prod.mk.inj hpair).1
  obtain ⟨hlt, hinside, hdepth⟩ := hmoves e rfl
  exact ⟨htime, after, hrun, hlt, hinside, hdepth, hnested⟩

/-- What happens there: an operand, a round for the second one, which is a power, and a round that ends
the product. -/
example :
    ((Task.rule (.chain .product)).perform .standard
        [.op ')', .numeral "2", .word "x", .op '^', .op '-', .numeral "3"] 56).run ⟨1, 125, []⟩ =
      some (.ok (.binary .mul (.numeral "2")
          (.binary .pow (.name "x") (.unary .negate (.numeral "3")))),
        ⟨6, 125, [.enter, .leave, .round (.chain .product) 1 1 2, .enter, .enter, .enter, .leave,
          .leave, .leave, .round (.chain .product) 2 1 6]⟩) := by
  rfl

end Reckoner.Grammar
