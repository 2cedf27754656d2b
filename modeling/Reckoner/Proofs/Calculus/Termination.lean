/-
How an integral comes to its end.

The list of what happens in an integral is put together from pieces: single steps, panels, and the
refinements of both halves. Of each piece it is said how deep its refinements go, how many samples it
has, that a sample that fails is its last step, and that nothing but idling follows a cut. Pieces that
are put together keep this, if the first one has no cut, or if the second one only idles. The latter
is what the flag is for that `refine` passes on: once it is set, every refinement returns the estimate
it was given.

None of this depends on the numbers. A comparison may fail, as it does for a NaN, on every level and
in every half.
-/
import Mathlib.Algebra.Group.Nat.Defs
import Reckoner.Proofs.Calculus.Course

set_option autoImplicit false

namespace Reckoner
namespace Integral

variable {ε σ α β γ : Type}

/-! ## Idling -/

/-- Nothing happens but that open refinements end, and that others begin and return the estimate they
were given. -/
inductive Idle : List (Event ε α) → Prop where
  | nil : Idle []
  | leave {depth : Nat} {result : α} {rest : List (Event ε α)} (h : Idle rest) :
    Idle (.leave depth result :: rest)
  | cutShort {depth : Nat} {whole : α} {rest : List (Event ε α)} (h : Idle rest) :
    Idle (.enter depth whole :: .cut :: .leave depth whole :: rest)

namespace Idle

variable {events more before after : List (Event ε α)}

theorem append (h : Idle events) (hmore : Idle more) : Idle (events ++ more) := by
  induction h with
  | nil => exact hmore
  | leave _ ih => exact ih.leave
  | cutShort _ ih => exact ih.cutShort

/-- There is no sample while nothing happens. -/
theorem not_isSample (h : Idle events) : ∀ event ∈ events, event.isSample = false := by
  induction h with
  | nil => simp
  | leave _ ih => simpa [Event.isSample] using ih
  | cutShort _ ih => simpa [Event.isSample] using ih

/-- Idling goes on behind every cut. -/
theorem of_cut (h : Idle events) (hsplit : events = before ++ .cut :: after) : Idle after := by
  induction h generalizing before with
  | nil => simp at hsplit
  | leave h ih =>
    cases before with
    | nil => simp at hsplit
    | cons event before =>
      simp only [List.cons_append, List.cons.injEq] at hsplit
      exact ih hsplit.2
  | cutShort h ih =>
    -- The cut is the one between the two ends of the refinement, or a later one.
    rcases before with _ | ⟨_, _ | ⟨_, _ | ⟨_, before⟩⟩⟩
    · simp at hsplit
    · simp only [List.cons_append, List.nil_append, List.cons.injEq] at hsplit
      rw [← hsplit.2.2]
      exact h.leave
    · simp at hsplit
    · simp only [List.cons_append, List.cons.injEq] at hsplit
      exact ih hsplit.2.2.2

end Idle

/-! ## What is said of a piece -/

/-- Whether a failure of the integrand is the outcome and the last thing that happens. Without a
failure there is a result. -/
def StopsAtFailure : Except ε β → List (Event ε α) → Prop
  | .ok _, events => ∀ x error, .sample x (.error error) ∉ events
  | .error error, events => ∃ before x, events = before ++ [.sample x (.error error)] ∧
      ∀ y other, .sample y (.error other) ∉ before

namespace StopsAtFailure

variable {outcome : Except ε β} {events before after : List (Event ε α)}

/-- Nothing happens behind a failure. -/
theorem eq_nil_of_failure {x : α} {error : ε} (h : StopsAtFailure outcome events)
    (hsplit : events = before ++ .sample x (.error error) :: after) :
    outcome = .error error ∧ after = [] := by
  cases outcome with
  | ok b => exact absurd (by simp [hsplit]) (h x error)
  | error error' =>
    obtain ⟨front, y, hevents, hfront⟩ := h
    rcases List.eq_nil_or_concat after with rfl | ⟨middle, last, rfl⟩
    · have hlast := List.append_inj_right' (hsplit.symm.trans hevents) rfl
      simp only [List.cons.injEq, Event.sample.injEq, Except.error.injEq] at hlast
      exact ⟨congrArg Except.error hlast.1.2.symm, rfl⟩
    · -- The failure would stand in front of the one at the end.
      have hsame : (before ++ .sample x (.error error) :: middle) ++ [last] =
          front ++ [.sample y (.error error')] := by
        rw [← hevents, hsplit]
        simp
      have hmiddle := List.append_inj_left' hsame rfl
      exact absurd (by simp [← hmiddle]) (hfront x error)

theorem exists_result (h : StopsAtFailure outcome events)
    (hnone : ∀ x error, .sample x (.error error) ∉ events) : ∃ b, outcome = .ok b := by
  cases outcome with
  | ok b => exact ⟨b, rfl⟩
  | error error =>
    obtain ⟨before, x, rfl, -⟩ := h
    exact absurd (by simp) (hnone x error)

end StopsAtFailure

/-- What holds of a piece of the list: refinements begin at no greater depth than `bound`, there are
at most `n` samples, and neither a failure nor a cut is followed by a sample. The flag says whether a
result comes with a cut. -/
structure Piece (bound n : Nat) (flag : β → Bool) (outcome : Except ε β)
    (events : List (Event ε α)) : Prop where
  depth_le : ∀ depth whole, .enter depth whole ∈ events → depth ≤ bound
  samples_le : events.countP Event.isSample ≤ n
  idle : ∀ before after, events = before ++ .cut :: after → Idle after
  stops : StopsAtFailure outcome events
  uncut : ∀ b, outcome = .ok b → flag b = false → .cut ∉ events

namespace Piece

variable {bound n m : Nat} {flag : β → Bool} {flag' : γ → Bool} {b : β}
  {outcome : Except ε γ} {events more : List (Event ε α)}

theorem mono (h : Piece bound n flag' outcome events) (hle : n ≤ m) :
    Piece bound m flag' outcome events :=
  { h with samples_le := Nat.le_trans h.samples_le hle }

/-- A failure is the outcome of all that was to come. -/
theorem error {error : ε} (h : Piece bound n flag (.error error) events) (flag' : γ → Bool) :
    Piece bound n flag' (.error error : Except ε γ) events :=
  { h with uncut := by simp }

theorem nil (b : β) : Piece bound 0 flag (.ok b) ([] : List (Event ε α)) where
  depth_le := by simp
  samples_le := by simp
  idle := by simp
  stops := by simp [StopsAtFailure]
  uncut := by simp

/-- Behind a single step there is nothing. -/
theorem single {event : Event ε α}
    (hdepth : ∀ depth whole, event = .enter depth whole → depth ≤ bound)
    (hsamples : [event].countP Event.isSample ≤ n) (hcut : event ≠ .cut)
    (hstops : StopsAtFailure outcome [event]) : Piece bound n flag' outcome [event] where
  depth_le depth whole hmem := hdepth depth whole (List.mem_singleton.mp hmem).symm
  samples_le := hsamples
  idle before after hsplit := by
    have hmem : .cut ∈ [event] := by simp [hsplit]
    exact absurd (List.mem_singleton.mp hmem).symm hcut
  stops := hstops
  uncut _ _ _ hmem := hcut (List.mem_singleton.mp hmem).symm

theorem leave (depth : Nat) (result : α) (b : β) :
    Piece bound 0 flag (.ok b) ([.leave depth result] : List (Event ε α)) :=
  .single (by simp) (by simp [Event.isSample]) (by simp) (by simp [StopsAtFailure])

theorem of_idle (h : Idle events)
    (hdepth : ∀ depth whole, .enter depth whole ∈ events → depth ≤ bound)
    (hflag : flag b = true) : Piece bound 0 flag (.ok b) events where
  depth_le := hdepth
  samples_le := by
    rw [Nat.le_zero, List.countP_eq_zero]
    intro event hevent
    simp [h.not_isSample event hevent]
  idle before after := h.of_cut
  stops x error hmem := by simpa [Event.isSample] using h.not_isSample _ hmem
  uncut c hc hfalse := by
    obtain rfl := Except.ok.inj hc
    exact absurd hflag (by simp [hfalse])

/-- Pieces are put together where the first one has no cut, or the second one idles. -/
theorem append (h : Piece bound n flag (.ok b) events) (hmore : Piece bound m flag' outcome more)
    (hcut : flag b = true → Idle more ∧ ∀ c, outcome = .ok c → flag' c = true) :
    Piece bound (n + m) flag' outcome (events ++ more) where
  depth_le depth whole hmem := by
    rcases List.mem_append.mp hmem with hmem | hmem
    · exact h.depth_le depth whole hmem
    · exact hmore.depth_le depth whole hmem
  samples_le := by
    have := h.samples_le
    have := hmore.samples_le
    rw [List.countP_append]
    omega
  idle before after hsplit := by
    rcases List.append_eq_append_iff.mp hsplit with ⟨front, rfl, hbehind⟩ | ⟨rest, hfront, hbehind⟩
    · exact hmore.idle front after hbehind
    · cases rest with
      | nil => exact hmore.idle [] after hbehind.symm
      | cons event rest =>
        simp only [List.cons_append, List.cons.injEq] at hbehind
        obtain ⟨rfl, rfl⟩ := hbehind
        cases hflag : flag b with
        | true => exact (h.idle before rest hfront).append (hcut hflag).1
        | false => exact absurd (by simp [hfront]) (h.uncut b rfl hflag)
  stops := by
    have hfirst := h.stops
    have hsecond := hmore.stops
    cases outcome with
    | ok c =>
      intro x error hmem
      rcases List.mem_append.mp hmem with hmem | hmem
      · exact hfirst x error hmem
      · exact hsecond x error hmem
    | error error =>
      obtain ⟨before, x, rfl, hbefore⟩ := hsecond
      refine ⟨events ++ before, x, by simp, fun y other hmem => ?_⟩
      rcases List.mem_append.mp hmem with hmem | hmem
      · exact hfirst y other hmem
      · exact hbefore y other hmem
  uncut c hc hfalse := by
    cases hflag : flag b with
    | true => simp [(hcut hflag).2 c hc] at hfalse
    | false => simp [h.uncut b rfl hflag, hmore.uncut c hc hfalse]

end Piece

/-! ## What is said of a computation -/

/-- Whether the piece that a computation adds to the list is one that is said to come with its
outcome. -/
def Adds (P : Except ε β → List (Event ε α) → Prop) (x : Recorder ε σ α β) : Prop :=
  ∀ s events, ∃ new, (x.run (s, events)).2.2 = events ++ new ∧ P (x.run (s, events)).1 new

namespace Adds

variable {P P' : Except ε β → List (Event ε α) → Prop} {Q : Except ε γ → List (Event ε α) → Prop}
  {x : Recorder ε σ α β} {next : β → Recorder ε σ α γ}

theorem mono (h : Adds P x) (himp : ∀ outcome new, P outcome new → P' outcome new) : Adds P' x := by
  intro s events
  obtain ⟨new, hnew, hP⟩ := h s events
  exact ⟨new, hnew, himp _ _ hP⟩

theorem pure {b : β} (h : P (.ok b) []) : Adds P (Pure.pure b : Recorder ε σ α β) :=
  fun _ events => ⟨[], (List.append_nil events).symm, h⟩

theorem bind (hx : Adds P x)
    (hnext : ∀ b new, P (.ok b) new →
      Adds (fun outcome more => Q outcome (new ++ more)) (next b))
    (herror : ∀ error new, P (.error error) new → Q (.error error) new) :
    Adds Q (x >>= next) := by
  intro s events
  obtain ⟨new, hnew, hP⟩ := hx s events
  rw [EvalM.run_bind]
  rcases hrun : x.run (s, events) with ⟨error | b, after, events'⟩
  · rw [hrun] at hnew hP
    exact ⟨new, hnew, herror error new hP⟩
  · rw [hrun] at hnew hP
    obtain ⟨more, hmore, hQ⟩ := hnext b new hP after events'
    have hlist : events' = events ++ new := hnew
    exact ⟨new ++ more, by rw [hmore, hlist, List.append_assoc], hQ⟩

theorem record (event : Event ε α) :
    Adds (fun outcome new => outcome = .ok () ∧ new = [event])
      (Integral.record event : Recorder ε σ α Unit) :=
  fun _ _ => ⟨[event], rfl, rfl, rfl⟩

variable {bound n m : Nat} {flag : β → Bool} {flag' : γ → Bool}

/-- A computation goes on with another one behind a piece without a cut, or behind a cut with one
that idles. -/
theorem bind_piece (hx : Adds (Piece bound n flag) x)
    (hnext : ∀ b, Adds (fun outcome more => Piece bound m flag' outcome more ∧
      (flag b = true → Idle more ∧ ∀ c, outcome = .ok c → flag' c = true)) (next b)) :
    Adds (Piece bound (n + m) flag') (x >>= next) := by
  refine hx.bind (fun b new hnew => ?_) fun error new hnew => ?_
  · exact (hnext b).mono fun outcome more hmore => hnew.append hmore.1 hmore.2
  · exact (hnew.error flag').mono (by omega)

theorem bind_uncut (hx : Adds (Piece bound n fun _ => false) x)
    (hnext : ∀ b, Adds (Piece bound m flag') (next b)) :
    Adds (Piece bound (n + m) flag') (x >>= next) :=
  hx.bind_piece fun b => (hnext b).mono fun _ _ hmore => ⟨hmore, by simp⟩

end Adds

/-! ## Samples -/

theorem adds_observed (bound : Nat) (f : α → ExceptT ε (StateM σ) α) (x : α) :
    Adds (Piece bound 1 fun _ => false) (observed f x) := by
  intro s events
  refine ⟨[.sample x ((f x).run s).1], rfl, ?_⟩
  have hrun : ((observed f x).run (s, events)).1 = ((f x).run s).1 := rfl
  rw [hrun]
  refine .single (by simp) (by simp [Event.isSample]) (by simp) ?_
  rcases ((f x).run s).1 with error | y
  · exact ⟨[], x, rfl, by simp⟩
  · simp [StopsAtFailure]

/-- A loop has the samples of its rounds. -/
theorem adds_foldlM {bound : Nat} {f : β → γ → Recorder ε σ α β}
    (h : ∀ b c, Adds (Piece bound 1 fun _ => false) (f b c)) (l : List γ) (b : β) :
    Adds (Piece bound l.length fun _ => false) (l.foldlM f b) := by
  induction l generalizing b with
  | nil => exact .pure (.nil b)
  | cons c l ih =>
    rw [List.foldlM_cons, List.length_cons, Nat.add_comm]
    exact (h b c).bind_uncut fun b' => ih b'

/-! ## The ends of a refinement -/

theorem adds_enter {bound depth : Nat} (hdepth : depth ≤ bound) (whole : α) :
    Adds (Piece bound 0 fun _ => false)
      (record (.enter depth whole) : Recorder ε σ α Unit) := by
  refine (Adds.record _).mono ?_
  rintro - - ⟨rfl, rfl⟩
  refine .single ?_ (by simp [Event.isSample]) (by simp) (by simp [StopsAtFailure])
  rintro d w ⟨⟩
  exact hdepth

/-- At the end of a refinement its result and its flag are returned. -/
theorem adds_leave (depth : Nat) (result : α) (cut : Bool) :
    Adds (fun outcome new => outcome = .ok (result, cut) ∧ new = [.leave depth result])
      (do record (.leave depth result); return (result, cut) : Recorder ε σ α (α × Bool)) := by
  refine (Adds.record _).bind ?_ (by simp)
  rintro - - ⟨-, rfl⟩
  exact .pure ⟨rfl, rfl⟩

/-- A refinement that is cut short begins, is cut, and ends with the estimate it was given. -/
theorem adds_cutShort (depth : Nat) (whole : α) :
    Adds (fun outcome new => outcome = .ok (whole, true) ∧
        new = [.enter depth whole, .cut, .leave depth whole])
      (cutShort depth whole : Recorder ε σ α (α × Bool)) := by
  refine (Adds.record _).bind ?_ (by simp)
  rintro - - ⟨-, rfl⟩
  refine (Adds.record _).bind ?_ (by simp)
  rintro - - ⟨-, rfl⟩
  refine (adds_leave depth whole true).mono ?_
  rintro - - ⟨rfl, rfl⟩
  exact ⟨rfl, rfl⟩

theorem adds_cutShort_piece {bound depth : Nat} (hdepth : depth ≤ bound) (n : Nat) (whole : α) :
    Adds (Piece bound n Prod.snd) (cutShort depth whole : Recorder ε σ α (α × Bool)) := by
  refine (adds_cutShort depth whole).mono ?_
  rintro - - ⟨rfl, rfl⟩
  refine (Piece.of_idle Idle.nil.cutShort ?_ rfl).mono (Nat.zero_le n)
  intro d w hmem
  simp at hmem
  omega

/-- The flag goes from the left half to the right one. If the left half comes with a cut, the right one
is cut short, and nothing happens any more until the refinement ends. -/
theorem adds_halves [Add α] {bound depth n m : Nat} {estimate : α}
    {left : Recorder ε σ α (α × Bool)} {right : Bool → Recorder ε σ α (α × Bool)}
    (hdepth : depth + 1 ≤ bound) (hleft : Adds (Piece bound n Prod.snd) left)
    (hright : Adds (Piece bound m Prod.snd) (right false))
    (hcut : right true = cutShort (depth + 1) estimate) :
    Adds (Piece bound (n + m) Prod.snd) (do
      let (l, cut) ← left
      let (r, cut) ← right cut
      record (.leave depth (l + r))
      return (l + r, cut)) := by
  refine hleft.bind_piece ?_
  rintro ⟨l, cut⟩
  dsimp only
  cases cut with
  | false =>
    refine (hright.bind_piece (m := 0) ?_).mono fun _ _ hmore => ⟨hmore, by simp⟩
    rintro ⟨r, cut⟩
    refine (adds_leave depth _ cut).mono ?_
    rintro - - ⟨rfl, rfl⟩
    refine ⟨.leave depth _ _, fun hflag => ⟨Idle.nil.leave, ?_⟩⟩
    rintro - ⟨⟩
    exact hflag
  | true =>
    rw [hcut]
    refine (adds_cutShort _ estimate).bind ?_ (by simp)
    rintro - - ⟨⟨⟩, rfl⟩
    refine (adds_leave depth _ true).mono ?_
    rintro - - ⟨rfl, rfl⟩
    have hidle : Idle ([.enter (depth + 1) estimate, .cut, .leave (depth + 1) estimate,
        .leave depth (l + estimate)] : List (Event ε α)) := Idle.nil.leave.cutShort
    refine ⟨(Piece.of_idle hidle ?_ rfl).mono (Nat.zero_le m), fun _ => ⟨hidle, ?_⟩⟩
    · intro d w hmem
      simp at hmem
      omega
    · rintro - ⟨⟩
      rfl

variable [Add α] [Sub α] [Mul α] [Div α] [Scalar α]

theorem adds_panel (bound : Nat) (f : α → ExceptT ε (StateM σ) α) (a b : α) :
    Adds (Piece bound 3 fun _ => false) (panel (observed f) a b) := by
  have hsample := adds_observed bound f
  unfold panel
  refine (hsample _).bind_uncut (m := 2) fun atStart => ?_
  refine (hsample _).bind_uncut (m := 1) fun atMiddle => ?_
  exact (hsample _).bind_uncut (m := 0) fun atEnd => .pure (.nil _)

theorem adds_composite (bound : Nat) (f : α → ExceptT ε (StateM σ) α) (a b : α) :
    Adds (Piece bound 11 fun _ => false) (composite (observed f) a b) := by
  have hsample := adds_observed bound f
  unfold composite
  refine (hsample _).bind_uncut (m := 10) fun atStart => ?_
  refine (hsample _).bind_uncut (m := 9) fun atEnd => ?_
  -- The loop runs over the nine points between the ten pieces.
  refine (adds_foldlM (fun sum i => ?_) (List.range' 1 (pieces - 1)) _).bind_uncut (m := 0)
    fun sum => .pure (.nil _)
  exact (hsample _).bind_uncut (m := 0) fun y => .pure (.nil _)

/-! ## Refinements -/

/-- Once the flag is set, a refinement is cut short, however many levels are left. -/
theorem refineRecorded_of_cut (f : α → Recorder ε σ α α) (levels depth : Nat) (a b eps whole : α) :
    refineRecorded f levels depth a b eps whole true = cutShort depth whole := by
  cases levels with
  | zero => rfl
  | succ levels => rw [refineRecorded, if_pos rfl]

/-- A refinement goes no deeper than there are levels left. It takes six samples, and so do those
within it that are not cut short, of which there are fewer than two to the power of the levels. -/
theorem adds_refineRecorded (f : α → ExceptT ε (StateM σ) α) (levels depth : Nat)
    (a b eps whole : α) (cut : Bool) :
    Adds (Piece (depth + levels) (6 * (2 ^ levels - 1)) Prod.snd)
      (refineRecorded (observed f) levels depth a b eps whole cut) := by
  induction levels generalizing depth a b eps whole cut with
  | zero => exact adds_cutShort_piece (by omega) _ whole
  | succ levels ih =>
    rw [refineRecorded]
    by_cases hcut : cut = true
    · rw [if_pos hcut]
      exact adds_cutShort_piece (by omega) _ whole
    rw [if_neg hcut]
    have hdepth : depth + 1 + levels = depth + (levels + 1) := by omega
    have hpanel := adds_panel (depth + (levels + 1)) f
    have hcount : 6 * (2 ^ (levels + 1) - 1) =
        0 + (3 + (3 + (6 * (2 ^ levels - 1) + 6 * (2 ^ levels - 1)))) := by
      have := Nat.one_le_two_pow (n := levels)
      omega
    rw [hcount]
    refine (adds_enter (by omega) whole).bind_uncut fun _ => ?_
    refine (hpanel _ _).bind_uncut fun left => ?_
    refine (hpanel _ _).bind_uncut fun right => ?_
    dsimp only
    split
    · -- The estimate is good enough.
      refine (adds_leave depth _ false).mono ?_
      rintro - - ⟨rfl, rfl⟩
      exact (Piece.leave depth _ _).mono (Nat.zero_le _)
    · have hhalf := ih (depth + 1)
      rw [hdepth] at hhalf
      exact adds_halves (by omega) (hhalf _ _ _ _ _) (hhalf _ _ _ _ _)
        (refineRecorded_of_cut _ levels _ _ _ _ _)

/-! ## Integrals -/

theorem adds_integrateRecorded (f : α → ExceptT ε (StateM σ) α) (a b : α) :
    Adds (Piece 21 (11 + 6 * (2 ^ 20 - 1)) fun _ => true)
      (integrateRecorded f a b : Recorder ε σ α α) := by
  refine (adds_composite 21 f a b).bind_uncut fun first => ?_
  refine (adds_refineRecorded f levels 1 a b tolerance first false).bind_piece (m := 0) ?_
  rintro ⟨result, cut⟩
  exact .pure ⟨.nil result, fun _ => ⟨.nil, fun _ _ => rfl⟩⟩

/-- What happens in an integral is a piece of its own. -/
theorem piece_course (f : α → ExceptT ε (StateM σ) α) (a b : α) (s : σ) :
    Piece 21 (11 + 6 * (2 ^ 20 - 1)) (fun _ => true) (course f a b s).outcome
      (course f a b s).events := by
  obtain ⟨new, hnew, hpiece⟩ := adds_integrateRecorded f a b s []
  have hevents : (course f a b s).events = new := hnew
  rw [hevents]
  exact hpiece

/-- A comparison with a NaN fails on every level. The left halves are refined down to the last level,
where refining is cut, and after that no right half is sampled. -/
example : (course (fun _ => pure (0 / 0) : Float → ExceptT Unit (StateM Unit) Float)
    0 1 ()).events.countP Event.isSample = 11 + 6 * 20 := by
  decide +kernel

end Integral

/-- **An integral comes to its end.** Its refinements go down to depth 21 at most, and the integrand
is evaluated at most 11 + 6 (2²⁰ - 1) times, whatever its values are. Once refining is cut anywhere, the
integrand is not evaluated again, and every refinement that begins returns the estimate it was given.
An evaluation that fails is the last one, and its failure is the outcome; if none fails, there is a
result. -/
theorem EvalM.integral_ends (integrand : EvalM Value) (a b : Float) (scope : Scope) :
    let course := Integral.course integrand.sample a b (scope.erase boundName)
    (EvalM.integral integrand a b).run scope =
        (course.outcome, course.state.restore scope boundName) ∧
      (∀ depth whole, .enter depth whole ∈ course.events → depth ≤ 21) ∧
      course.events.countP Integral.Event.isSample ≤ 11 + 6 * (2 ^ 20 - 1) ∧
      (∀ before after, course.events = before ++ .cut :: after → Integral.Idle after) ∧
      (∀ before x error after, course.events = before ++ .sample x (.error error) :: after →
        course.outcome = .error error ∧ after = []) ∧
      ((∀ x error, .sample x (.error error) ∉ course.events) → ∃ y, course.outcome = .ok y) := by
  intro course
  have hpiece := Integral.piece_course integrand.sample a b (scope.erase boundName)
  have hrun := Integral.course_eq integrand.sample a b (scope.erase boundName)
  refine ⟨?_, hpiece.depth_le, hpiece.samples_le, hpiece.idle, ?_, hpiece.stops.exists_result⟩
  · have hbound : (EvalM.integral integrand a b).run scope =
        Scope.binding boundName (integrate integrand.sample a b).run scope := rfl
    rw [hbound, Scope.binding, ← hrun]
  · intro before x error after
    exact hpiece.stops.eq_nil_of_failure

end Reckoner
