/-
What an expression is spelled with.

Reading drops parentheses and puts signs and operators into the tree, but numerals and words stay as
they are: each numeral, name and function of an expression that was read is one of the tokens. And
every word has found its meaning. The grammar asks the library before it builds anything of a word, so
what was read calls nothing but functions of the library, and no name in it is the name of one. Only
such expressions get as far as evaluation.
-/
import Reckoner.Proofs.Expr.Parts
import Reckoner.Proofs.Grammar.Acceptance

set_option autoImplicit false

namespace Reckoner

variable {library : Library} {p : Token → Prop}

namespace Expr

/-- The expressions that are spelled with tokens that have a property, and in which the library tells
names from functions. -/
inductive SpelledBy (library : Library) (p : Token → Prop) : Expr → Prop where
  | numeral {text : String} (htoken : p (.numeral text)) : SpelledBy library p (.numeral text)
  | name {text : String} (htoken : p (.word text)) (hname : library.contains text = false) :
    SpelledBy library p (.name text)
  | unary (op : UnaryOp) {operand : Expr} (hoperand : SpelledBy library p operand) :
    SpelledBy library p (.unary op operand)
  | binary (op : BinaryOp) {left right : Expr} (hleft : SpelledBy library p left)
    (hright : SpelledBy library p right) : SpelledBy library p (.binary op left right)
  | call {function : String} {arguments : List Expr} (htoken : p (.word function))
    (hfunction : library.contains function = true)
    (harguments : ∀ e ∈ arguments, SpelledBy library p e) :
    SpelledBy library p (.call function arguments)
  | assign {target value : Expr} (htarget : SpelledBy library p target)
    (hvalue : SpelledBy library p value) : SpelledBy library p (.assign target value)

namespace SpelledBy

theorem of_part {e part : Expr} (h : e.SpelledBy library p) (hpart : Part part e) :
    part.SpelledBy library p := by
  induction hpart with
  | refl => exact h
  | operand op _ ih =>
    cases h with
    | unary _ hoperand => exact ih hoperand
  | left op right _ ih =>
    cases h with
    | binary _ hleft _ => exact ih hleft
  | right op left _ ih =>
    cases h with
    | binary _ _ hright => exact ih hright
  | argument function he _ ih =>
    cases h with
    | call _ _ harguments => exact ih (harguments _ he)
  | target value _ ih =>
    cases h with
    | assign htarget _ => exact ih htarget
  | value target _ ih =>
    cases h with
    | assign _ hvalue => exact ih hvalue

/-- The function of a call is found. -/
theorem get?_ne_none {e : Expr} {function : String} {arguments : List Expr}
    (h : e.SpelledBy library p) (hpart : Part (.call function arguments) e) :
    library.get? function ≠ none := by
  cases h.of_part hpart with
  | call _ hfunction _ => exact Option.isSome_iff_ne_none.mp hfunction

end SpelledBy
end Expr

namespace Grammar

open Reckoner.Expr (SpelledBy)

/-- What a phrase means is spelled with such tokens: the steps of a chain go on from an operand that
is, and so is each argument of a call. -/
def Symbol.MeaningSpelledBy (library : Library) (p : Token → Prop) : (s : Symbol) → s.Meaning → Prop
  | .expression, e | .sum, e | .product, e | .factor, e | .atom, e => SpelledBy library p e
  | .sumSteps, f | .productSteps, f =>
    ∀ left, SpelledBy library p left → SpelledBy library p (f left)
  | .arguments, es | .moreArguments, es => ∀ e ∈ es, SpelledBy library p e

/-- What an admissible derivation means is spelled with its tokens. -/
theorem Derivation.meaning_spelledBy {s : Symbol} {d : Derivation s} (hd : d.Admissible library)
    (h : ∀ t ∈ d.tokens, p t) : s.MeaningSpelledBy library p d.meaning := by
  induction d with
  | value operand ih => exact ih hd h
  | assignment target right iht ihr =>
    obtain ⟨htarget, hright⟩ := List.forall_mem_append.mp h
    exact .assign (iht hd.1 htarget) (ihr hd.2 (List.forall_mem_cons.mp hright).2)
  | sum first steps ihf ihs | product first steps ihf ihs =>
    obtain ⟨hfirst, hsteps⟩ := List.forall_mem_append.mp h
    exact ihs hd.2 hsteps _ (ihf hd.1 hfirst)
  | sumEnd | productEnd => exact fun left hleft => hleft
  | sumStep op _ operand steps iho ihs =>
    obtain ⟨hoperand, hsteps⟩ := List.forall_mem_append.mp (List.forall_mem_cons.mp h).2
    exact fun left hleft => ihs hd.2 hsteps _ (.binary op hleft (iho hd.1 hoperand))
  | productStep op _ operand steps iho ihs =>
    obtain ⟨hoperand, hsteps⟩ := List.forall_mem_append.mp (List.forall_mem_cons.mp h).2
    exact fun left hleft => ihs hd.2.2 hsteps _ (.binary op hleft (iho hd.2.1 hoperand))
  | juxtaposed operand steps iho ihs =>
    obtain ⟨hoperand, hsteps⟩ := List.forall_mem_append.mp h
    exact fun left hleft => ihs hd.2.2 hsteps _ (.binary .mul hleft (iho hd.2.1 hoperand))
  | signed op operand ih => exact .unary op (ih hd (List.forall_mem_cons.mp h).2)
  | single base ih => exact ih hd h
  | power base exponent ihb ihe =>
    obtain ⟨hbase, hexponent⟩ := List.forall_mem_append.mp h
    exact .binary .pow (ihb hd.2.1 hbase) (ihe hd.2.2 (List.forall_mem_cons.mp hexponent).2)
  | numeral text => exact .numeral (List.forall_mem_singleton.mp h)
  | name text => exact .name (List.forall_mem_singleton.mp h) hd
  | group e ih => exact ih hd (List.forall_mem_append.mp (List.forall_mem_cons.mp h).2).1
  | call function args ih =>
    obtain ⟨htoken, hbehind⟩ := List.forall_mem_cons.mp h
    have harguments := (List.forall_mem_append.mp (List.forall_mem_cons.mp hbehind).2).1
    exact .call htoken hd.1 (ih hd.2 harguments)
  | command function operand ih =>
    obtain ⟨htoken, hoperand⟩ := List.forall_mem_cons.mp h
    exact .call htoken hd.1 (List.forall_mem_singleton.mpr (ih hd.2.2 hoperand))
  | noArguments | argumentsEnd => exact fun e he => absurd he List.not_mem_nil
  | someArguments first rest ihf ihr =>
    obtain ⟨hfirst, hrest⟩ := List.forall_mem_append.mp h
    exact List.forall_mem_cons.mpr ⟨ihf hd.1 hfirst, ihr hd.2 hrest⟩
  | argument e rest ihe ihr =>
    obtain ⟨he, hrest⟩ := List.forall_mem_append.mp (List.forall_mem_cons.mp h).2
    exact List.forall_mem_cons.mpr ⟨ihe hd.1 he, ihr hd.2 hrest⟩

end Grammar

/-- What is read is spelled with the tokens that it is read from. -/
theorem Expr.spelledBy_of_ofTokens {ts : List Token} {e : Expr} (h : ofTokens library ts = .ok e)
    (hts : ∀ t ∈ ts, p t) : e.SpelledBy library p := by
  obtain ⟨d, hd, rfl⟩ := derivation_of_ofTokens h
  have htokens : ∀ t ∈ d.tokens, p t := hd.tokens ▸ hts
  exact Grammar.Derivation.meaning_spelledBy hd.admissible htokens

end Reckoner
