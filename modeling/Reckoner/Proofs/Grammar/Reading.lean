/-
How a reading with the cursor ends.

Of a reading that has come to its end it is said what it has read, by a phrase of the grammar for the
tokens that were left where it began. It is said how the cursor has moved, if there is no fault: on by
a number of tokens, not past the last one, and with the count of open rules as it was. And it is said
what has happened on the way, whether there is a fault or not: as many rules have ended as have opened,
no more of them have been open at any time than there was room for, and each round of a loop has begun
behind a token for every round before it.

These three go together from the steps of a reading to the whole. All of it is said of readings that
end, so for every step it is part of the statement that it does.
-/
import Reckoner.Proofs.Grammar.Descent

set_option autoImplicit false

namespace Reckoner.Grammar

/-! ## What happens -/

/-- Where a round of a loop may begin. The rule of the loop has begun at `start`, and has taken a token
for each round. A product has taken every `^` that it comes to as part of a factor. -/
structure RoundAt (tokens : List Token) (loop : Loop) (number start position : Nat) : Prop where
  advanced : start + number ≤ position
  inside : position ≤ tokens.length
  noPower : loop = .chain .product → (tokens.drop position).head? ≠ some (.op '^')

/-- What happens in a reading for which so many more rules may open. -/
structure Orderly (tokens : List Token) (room : Nat) (events : List Event) : Prop where
  balanced : events.count .enter = events.count .leave
  nested : ∀ before, before <+: events → before.count .enter ≤ before.count .leave + room
  rounds : ∀ loop number start position, .round loop number start position ∈ events →
    RoundAt tokens loop number start position

namespace Orderly

variable {tokens : List Token} {room : Nat} {events more : List Event}

theorem nil (tokens : List Token) (room : Nat) : Orderly tokens room [] where
  balanced := rfl
  nested before h := by
    obtain rfl := List.prefix_nil.mp h
    exact Nat.zero_le _
  rounds _ _ _ _ h := absurd h List.not_mem_nil

/-- A round opens no rule and ends none. -/
theorem round {loop : Loop} {number start position : Nat}
    (h : RoundAt tokens loop number start position) :
    Orderly tokens room [.round loop number start position] where
  balanced := rfl
  nested before hbefore := by
    have hzero : before.count .enter = 0 := Nat.le_zero.mp (hbefore.sublist.count_le .enter)
    omega
  rounds _ _ _ _ hmem := by
    obtain ⟨rfl, rfl, rfl, rfl⟩ := Event.round.inj (List.mem_singleton.mp hmem)
    exact h

/-- What happens first leaves no rule open, so there is as much room for what happens then. -/
theorem append (h : Orderly tokens room events) (hmore : Orderly tokens room more) :
    Orderly tokens room (events ++ more) where
  balanced := by rw [List.count_append, List.count_append, h.balanced, hmore.balanced]
  nested before hbefore := by
    rcases List.prefix_or_prefix_of_prefix hbefore (List.prefix_append events more) with
      hfirst | ⟨front, rfl⟩
    · exact h.nested before hfirst
    · have hfront := hmore.nested front ((List.prefix_append_right_inj events).mp hbefore)
      have hbalanced := h.balanced
      rw [List.count_append, List.count_append]
      omega
  rounds loop number start position hmem := by
    rcases List.mem_append.mp hmem with hmem | hmem
    · exact h.rounds loop number start position hmem
    · exact hmore.rounds loop number start position hmem

/-- A rule that opens takes the room of one until it ends. -/
theorem enclosed (h : Orderly tokens room events) :
    Orderly tokens (room + 1) (.enter :: (events ++ [.leave])) where
  balanced := by
    have hbalanced := h.balanced
    simp [hbalanced]
  nested before hbefore := by
    rcases List.prefix_cons_iff.mp hbefore with rfl | ⟨front, rfl, hfront⟩
    · exact Nat.zero_le _
    · have henter : (Event.enter :: front).count .enter = front.count .enter + 1 :=
        List.count_cons_self
      have hleave : (Event.enter :: front).count .leave = front.count .leave :=
        List.count_cons_of_ne (by decide)
      rcases List.prefix_concat_iff.mp hfront with rfl | hfront
      · have hbalanced := h.balanced
        simp only [List.count_append, List.count_singleton_self] at henter hleave
        rw [henter, hleave]
        have hnone : [Event.leave].count .enter = 0 := rfl
        omega
      · have hnested := h.nested front hfront
        omega
  rounds loop number start position hmem := by
    have hmem : .round loop number start position ∈ events := by simpa using hmem
    exact h.rounds loop number start position hmem

end Orderly

/-! ## What is read -/

/-- The cursor has moved on by at least `k` tokens, and not past the last one. As many rules are open as
there were. -/
structure Moves (tokens : List Token) (k : Nat) (c after : Cursor) : Prop where
  advances : c.position + k ≤ after.position
  inside : after.position ≤ max c.position tokens.length
  depth : after.depth = c.depth

/-- How a reading ends that has begun at `c`, where a phrase of the grammar comes to `expected`. -/
structure Reads {α : Type} (tokens : List Token) (k : Nat) (c : Cursor)
    (expected : Except SyntaxFault (α × List Token)) (outcome : Except SyntaxFault α)
    (after : Cursor) : Prop where
  agrees : expected = outcome.map fun a => (a, tokens.drop after.position)
  moves : ∀ a, outcome = .ok a → Moves tokens k c after
  happens : ∃ new, after.events = c.events ++ new ∧ Orderly tokens (maxNesting - c.depth) new

/-- The reader comes to an end from here, and it is as `post` says. -/
def Reader.Ends {α : Type} (x : Reader α) (c : Cursor)
    (post : Except SyntaxFault α → Cursor → Prop) : Prop :=
  ∃ outcome after, x.run c = some (outcome, after) ∧ post outcome after

section Cursor

variable {tokens : List Token} {c after later : Cursor} {k m : Nat}

theorem Moves.trans (h : Moves tokens k c after) (h' : Moves tokens m after later) :
    Moves tokens k c later := by
  have hadvances := h.advances
  have hadvances' := h'.advances
  have hinside := h.inside
  have hinside' := h'.inside
  exact ⟨by omega, by omega, h'.depth.trans h.depth⟩

/-- Where the cursor has moved on, there were tokens. -/
theorem Moves.lt (h : Moves tokens (k + 1) c after) :
    c.position < after.position ∧ after.position ≤ tokens.length := by
  have hadvances := h.advances
  have hinside := h.inside
  omega

/-- A token at the cursor is not past the last one, and the others are behind it. -/
theorem drop_eq_cons {t : Token} {ts : List Token} (h : tokens.drop c.position = t :: ts) :
    c.position < tokens.length ∧ tokens.drop (c.position + 1) = ts := by
  constructor
  · have hlength := congrArg List.length h
    rw [List.length_drop, List.length_cons] at hlength
    omega
  · rw [← List.drop_drop, h]
    rfl

end Cursor

/-! ## The steps of a reading -/

namespace Reader

variable {α β : Type}

/-- One reader after another one, which begins where the first has ended without a fault. -/
theorem run_bind (x : Reader α) (next : α → Reader β) (c : Cursor) :
    (x >>= next).run c =
      match x.run c with
      | none => none
      | some (.ok a, after) => (next a).run after
      | some (.error fault, after) => some (.error fault, after) := by
  rw [ExceptT.run_bind]
  simp only [bind, StateT.bind, Option.bind]
  rcases x.run c with _ | ⟨fault | a, after⟩
  · rfl
  · rfl
  · rfl

namespace Ends

variable {tokens : List Token} {c : Cursor} {k m : Nat} {x : Reader α} {next : α → Reader β}
  {expected : Except SyntaxFault (α × List Token)} {result : Except SyntaxFault (β × List Token)}
  {post : Except SyntaxFault β → Cursor → Prop}

/-- A step that does not fail and leads to `after`. -/
theorem step {a : α} {after : Cursor} (hx : x.run c = some (.ok a, after))
    (h : (next a).Ends after post) : (x >>= next).Ends c post := by
  obtain ⟨outcome, later, hrun, hpost⟩ := h
  refine ⟨outcome, later, ?_, hpost⟩
  rw [run_bind, hx]
  exact hrun

theorem position {next : Nat → Reader β} (h : (next c.position).Ends c post) :
    (Reader.position >>= next).Ends c post :=
  .step rfl h

/-- Looking at the next token takes nothing, and neither does asking for the position. -/
theorem peek {next : Option Token → Reader β}
    (h : (next (tokens.drop c.position).head?).Ends c post) :
    (Reader.peek tokens >>= next).Ends c post := by
  rw [List.head?_drop] at h
  exact .step rfl h

/-- What comes next is this character, or it is not. -/
theorem sees {ch : Char} {yes no : Reader β}
    (hyes : ∀ ts, tokens.drop c.position = .op ch :: ts → yes.Ends c post)
    (hno : (tokens.drop c.position).head? ≠ some (.op ch) → no.Ends c post) :
    (do if ← Reader.sees tokens ch then yes else no : Reader β).Ends c post := by
  have hsees : (if (tokens.drop c.position).head? == some (.op ch) then yes else no).Ends c
      post := by
    split
    · next hhead =>
      obtain ⟨ts, hts⟩ := List.head?_eq_some_iff.mp (eq_of_beq hhead)
      exact hyes ts hts
    · next hhead => exact hno fun heq => hhead (beq_iff_eq.mpr heq)
  rw [List.head?_drop] at hsees
  exact .step rfl hsees

/-- A result takes no tokens. -/
theorem pure {ts : List Token} (a : α) (h : tokens.drop c.position = ts) :
    (Pure.pure a : Reader α).Ends c (Reads tokens 0 c (.ok (a, ts))) := by
  refine ⟨.ok a, c, rfl, ?_, fun _ _ => ⟨Nat.le_refl _, Nat.le_max_left _ _, rfl⟩, [],
    (List.append_nil _).symm, .nil _ _⟩
  rw [← h]
  rfl

/-- After a fault nothing is left to say of the cursor. -/
theorem fault (fault : SyntaxFault) :
    (throw fault : Reader α).Ends c (Reads tokens k c (.error fault)) :=
  ⟨.error fault, c, rfl, rfl, fun _ h => absurd h (by rintro ⟨⟩), [],
    (List.append_nil _).symm, .nil _ _⟩

/-- A reading that takes some tokens takes fewer of them as well. -/
theorem mono (h : x.Ends c (Reads tokens m c expected)) (hle : k ≤ m) :
    x.Ends c (Reads tokens k c expected) := by
  obtain ⟨outcome, after, hrun, hreads⟩ := h
  refine ⟨outcome, after, hrun, { hreads with moves := fun a ha => ?_ }⟩
  have hmoves := hreads.moves a ha
  have hadvances := hmoves.advances
  exact { hmoves with advances := by omega }

/-- One reading after another one, which goes on with the tokens that are left. -/
theorem bind {rest : α × List Token → Except SyntaxFault (β × List Token)}
    (hx : x.Ends c (Reads tokens k c expected))
    (hnext : ∀ a after, expected = .ok (a, tokens.drop after.position) → Moves tokens k c after →
      (next a).Ends after (Reads tokens m after (rest (a, tokens.drop after.position)))) :
    (x >>= next).Ends c (Reads tokens k c (expected >>= rest)) := by
  obtain ⟨outcome, after, hrun, hreads⟩ := hx
  obtain ⟨new, hnew, horderly⟩ := hreads.happens
  cases outcome with
  | error fault =>
    refine ⟨.error fault, after, by rw [run_bind, hrun], ?_, fun _ h => absurd h (by rintro ⟨⟩),
      new, hnew, horderly⟩
    rw [hreads.agrees]
    rfl
  | ok a =>
    have hmoves := hreads.moves a rfl
    obtain ⟨outcome', later, hrun', hreads'⟩ := hnext a after hreads.agrees hmoves
    obtain ⟨new', hnew', horderly'⟩ := hreads'.happens
    rw [hmoves.depth] at horderly'
    refine ⟨outcome', later, ?_, ?_, fun b hb => hmoves.trans (hreads'.moves b hb), new ++ new', ?_,
      horderly.append horderly'⟩
    · rw [run_bind, hrun]
      exact hrun'
    · rw [hreads.agrees]
      exact hreads'.agrees
    · rw [hnew', hnew, List.append_assoc]

/-- Moves on by tokens that are there. -/
theorem move {count : Nat} {next : Reader β} (hcount : c.position + count ≤ tokens.length)
    (hk : k ≤ count + m)
    (h : ∀ after : Cursor, after.position = c.position + count → after.depth = c.depth →
      next.Ends after (Reads tokens m after result)) :
    (do Reader.move count; next).Ends c (Reads tokens k c result) := by
  obtain ⟨outcome, after, hrun, hreads⟩ := h { c with position := c.position + count } rfl rfl
  refine ⟨outcome, after, by rw [run_bind]; exact hrun, hreads.agrees, fun b hb => ?_,
    hreads.happens⟩
  have hmoves := hreads.moves b hb
  have hadvances : c.position + count + m ≤ after.position := hmoves.advances
  have hinside : after.position ≤ max (c.position + count) tokens.length := hmoves.inside
  exact ⟨by omega, by omega, hmoves.depth⟩

/-- Passes the next token. -/
theorem pass {t : Token} {ts : List Token} {next : Reader β}
    (hdrop : tokens.drop c.position = t :: ts) (hk : k ≤ 1)
    (h : ∀ after : Cursor, after.position = c.position + 1 → after.depth = c.depth →
      tokens.drop after.position = ts → next.Ends after (Reads tokens m after result)) :
    (do Reader.move 1; next).Ends c (Reads tokens k c result) := by
  obtain ⟨hposition, htail⟩ := drop_eq_cons hdrop
  refine .move hposition (by omega) fun after hafter hdepth => h after hafter hdepth ?_
  rw [hafter, htail]

/-- A round is put on the list where it may begin, and changes nothing else. -/
theorem round {loop : Loop} {number start : Nat} {next : Reader β}
    (hround : RoundAt tokens loop number start c.position)
    (h : ∀ after : Cursor, after.position = c.position → after.depth = c.depth →
      next.Ends after (Reads tokens k after result)) :
    (do record (.round loop number start (← Reader.position)); next).Ends c
      (Reads tokens k c result) := by
  obtain ⟨outcome, after, hrun, hreads⟩ :=
    h { c with events := c.events ++ [.round loop number start c.position] } rfl rfl
  obtain ⟨new, hnew, horderly⟩ := hreads.happens
  refine .position ⟨outcome, after, by rw [run_bind]; exact hrun, hreads.agrees, fun b hb => ?_,
    .round loop number start c.position :: new, ?_, (Orderly.round hround).append horderly⟩
  · have hmoves := hreads.moves b hb
    exact ⟨hmoves.advances, hmoves.inside, hmoves.depth⟩
  · rw [hnew, List.append_assoc]
    rfl

/-- Passes a parenthesis that closes, or fails as the grammar does. -/
theorem close :
    (Reader.close tokens).Ends c (Reads tokens 1 c (closing (tokens.drop c.position))) := by
  refine .sees (fun ts hdrop => ?_) fun hhead => ?_
  · obtain ⟨hposition, htail⟩ := drop_eq_cons hdrop
    refine ⟨.ok (), { c with position := c.position + 1 }, rfl, ?_, fun _ _ => ⟨?_, ?_, rfl⟩, [],
      (List.append_nil _).symm, .nil _ _⟩
    · rw [hdrop, ← htail]
      rfl
    · exact Nat.le_refl _
    · exact Nat.le_trans hposition (Nat.le_max_right _ _)
  · have hclosing : closing (tokens.drop c.position) = .error .unclosed := by
      unfold closing
      split
      · next heq => exact absurd (by rw [heq]; rfl) hhead
      · rfl
    rw [hclosing]
    exact .fault _

/-! ### Rules that open -/

variable {rule : Reader Expr} {read : Except SyntaxFault (Expr × List Token)}

/-- A rule opens while there is room for one more. Inside there is room for one less. -/
theorem nested (hdepth : c.depth < maxNesting)
    (h : ∀ opened : Cursor, opened.position = c.position → opened.depth = c.depth + 1 →
      rule.Ends opened (Reads tokens k opened read)) :
    (Reader.nested rule).Ends c (Reads tokens k c read) := by
  obtain ⟨outcome, after, hrun, hreads⟩ :=
    h { c with depth := c.depth + 1, events := c.events ++ [.enter] } rfl rfl
  obtain ⟨new, hnew, horderly⟩ := hreads.happens
  refine ⟨outcome, { after with depth := after.depth - 1, events := after.events ++ [.leave] }, ?_,
    hreads.agrees, fun e he => ?_, .enter :: (new ++ [.leave]), ?_, ?_⟩
  · have hopen : ¬maxNesting < c.depth + 1 := Nat.not_lt.mpr hdepth
    show (if maxNesting < c.depth + 1 then _ else _) = _
    rw [if_neg hopen, hrun]
    rfl
  · have hmoves := hreads.moves e he
    refine ⟨hmoves.advances, hmoves.inside, ?_⟩
    show after.depth - 1 = c.depth
    rw [hmoves.depth]
    rfl
  · show after.events ++ [.leave] = c.events ++ .enter :: (new ++ [.leave])
    rw [hnew, List.append_assoc, List.append_assoc]
    rfl
  · have hroom : maxNesting - c.depth = maxNesting - (c.depth + 1) + 1 := by omega
    rw [hroom]
    exact horderly.enclosed

/-- Without room for it, a rule fails before it takes a token. -/
theorem tooDeep (hdepth : maxNesting ≤ c.depth) :
    (Reader.nested rule).Ends c (Reads tokens k c (.error .tooDeep)) :=
  ⟨.error .tooDeep, { c with depth := c.depth + 1 }, if_pos (Nat.lt_succ_of_le hdepth), rfl,
    fun _ h => absurd h (by rintro ⟨⟩), [], (List.append_nil _).symm, .nil _ _⟩

end Ends
end Reader
end Reckoner.Grammar
