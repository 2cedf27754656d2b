/-
The tokens of a shown expression.

The text that shows an expression falls into the tokens one expects: those of its parts, with
parentheses, operators and commas between them. At every boundary a run ends, since behind a part
there is a blank, a parenthesis, a comma or the end. So the text of a part can be read on its own,
whatever it is a part of.
-/
import Reckoner.Proofs.Grammar.Spelling
import Reckoner.Proofs.Lexer.Shapes

set_option autoImplicit false

namespace Reckoner

theorem UnaryOp.isOperator_symbol (op : UnaryOp) : Token.isOperator op.symbol = true := by
  cases op <;> decide

theorem BinaryOp.isOperator_symbol (op : BinaryOp) : Token.isOperator op.symbol = true := by
  cases op <;> decide

/-! ## Names of functions -/

/-- Whether the name of every function is a word. A call is shown by this name. -/
def Library.NamesAreWords (library : Library) : Prop :=
  ∀ function, library.contains function = true → Token.IsWord function

/-- The functions of the calculator have words for names. -/
theorem Library.standard_namesAreWords : standard.NamesAreWords := by
  have hnames : ∀ name ∈ standard.names, Token.IsWord name := by decide
  intro function h
  exact hnames function (mem_names_of_contains h)

namespace Expr

/-! ## Expressions that can be shown -/

/-- Whether an expression is an assignment, which is shown without parentheses. -/
def isAssignment : Expr → Bool
  | .assign _ _ => true
  | _ => false

/-- The expressions whose text can be read again: the leaves have the shape of their tokens, the
library tells names from functions as the expression does, and no assignment stands where only
parentheses could hold it together. -/
inductive Printable (library : Library) : Expr → Prop where
  | numeral {text : String} (hshape : Token.IsNumeral text) : Printable library (.numeral text)
  | name {text : String} (hshape : Token.IsWord text) (hname : library.contains text = false) :
    Printable library (.name text)
  | unary {op : UnaryOp} {operand : Expr} (hassign : operand.isAssignment = false)
    (hoperand : Printable library operand) : Printable library (.unary op operand)
  | binary {op : BinaryOp} {left right : Expr} (hassignl : left.isAssignment = false)
    (hassignr : right.isAssignment = false) (hleft : Printable library left)
    (hright : Printable library right) : Printable library (.binary op left right)
  | call {function : String} {arguments : List Expr} (hfunction : library.contains function = true)
    (harguments : ∀ e ∈ arguments, Printable library e) :
    Printable library (.call function arguments)
  | assign {target value : Expr} (hassign : target.isAssignment = false)
    (htarget : Printable library target) (hvalue : Printable library value) :
    Printable library (.assign target value)

/-! ## Tokens -/

mutual

/-- The tokens of the text that shows an expression. -/
def tokens : Expr → List Token
  | .numeral text => [.numeral text]
  | .name text => [.word text]
  | .unary op operand => .op '(' :: op.token :: (operand.tokens ++ [.op ')'])
  | .binary op left right =>
    .op '(' :: (left.tokens ++ op.token :: (right.tokens ++ [.op ')']))
  | .call function arguments =>
    .word function :: .op '(' :: (argumentTokens arguments ++ [.op ')'])
  | .assign target value => target.tokens ++ .op '=' :: value.tokens

/-- The tokens of the arguments of a call. -/
def argumentTokens : List Expr → List Token
  | [] => []
  | e :: es => e.tokens ++ moreArgumentTokens es

/-- The tokens of further arguments, each behind a comma. -/
def moreArgumentTokens : List Expr → List Token
  | [] => []
  | e :: es => .op ',' :: (e.tokens ++ moreArgumentTokens es)

end

/-! ## The shown text, by its characters -/

theorem toList_render_unary (op : UnaryOp) (operand : Expr) (rest : List Char) :
    (unary op operand).render.toList ++ rest =
      '(' :: op.symbol :: (operand.render.toList ++ ')' :: rest) := by
  simp [render]

theorem toList_render_binary (op : BinaryOp) (left right : Expr) (rest : List Char) :
    (binary op left right).render.toList ++ rest =
      '(' :: (left.render.toList ++
        ' ' :: op.symbol :: ' ' :: (right.render.toList ++ ')' :: rest)) := by
  simp [render]

theorem toList_render_call (function : String) (arguments : List Expr) (rest : List Char) :
    (call function arguments).render.toList ++ rest =
      function.toList ++ '(' :: ((", ".intercalate (renderAll arguments)).toList ++
        ')' :: rest) := by
  simp [render]

theorem toList_render_assign (target value : Expr) (rest : List Char) :
    (assign target value).render.toList ++ rest =
      target.render.toList ++ ' ' :: '=' :: ' ' :: (value.render.toList ++ rest) := by
  simp [render]

/-- Further arguments are shown behind a comma and a blank each. -/
def moreArgumentChars : List Expr → List Char
  | [] => []
  | e :: es => ',' :: ' ' :: (e.render.toList ++ moreArgumentChars es)

/-- Of the arguments of a call, all but the first are shown behind a comma. -/
theorem toList_intercalate_renderAll (e : Expr) (es : List Expr) :
    (", ".intercalate (renderAll (e :: es))).toList = e.render.toList ++ moreArgumentChars es := by
  induction es generalizing e with
  | nil =>
    rw [renderAll, renderAll, String.intercalate_singleton, moreArgumentChars, List.append_nil]
  | cons e' es ih =>
    have hmore : (", ".intercalate (renderAll (e' :: es))).toList =
        e'.render.toList ++ moreArgumentChars es := ih e'
    rw [renderAll] at hmore
    rw [renderAll, renderAll, String.intercalate_cons_cons, String.toList_append,
      String.toList_append, hmore, List.append_assoc]
    rfl

/-! ## Reading the shown text -/

/-- Reading the text of an expression off the front of a line. -/
def LexesBefore (e : Expr) : Prop :=
  ∀ {rest : List Char} {ts : List Token}, Token.Breaks rest → Token.ofChars rest = .ok ts →
    Token.ofChars (e.render.toList ++ rest) = .ok (e.tokens ++ ts)

section Lexing

variable {rest : List Char} {ts : List Token}

/-- A comma ends every run, and so does what is behind the arguments. -/
theorem breaks_moreArgumentChars (es : List Expr) (hrest : Token.Breaks rest) :
    Token.Breaks (moreArgumentChars es ++ rest) := by
  cases es with
  | nil => exact hrest
  | cons e es => exact .cons (by decide) _

/-- Further arguments are read if each can be read before something else. -/
theorem ofChars_moreArguments {es : List Expr} (hes : ∀ e ∈ es, e.LexesBefore)
    (hrest : Token.Breaks rest) (h : Token.ofChars rest = .ok ts) :
    Token.ofChars (moreArgumentChars es ++ rest) = .ok (moreArgumentTokens es ++ ts) := by
  -- On the arguments, so that those behind an argument are what it is read before.
  induction es with
  | nil => exact h
  | cons e es ih =>
    obtain ⟨he, hes⟩ := List.forall_mem_cons.mp hes
    have hmore := ih hes
    have hbreaks : Token.Breaks (moreArgumentChars es ++ rest) := breaks_moreArgumentChars es hrest
    have hread := Token.ofChars_blank (he hbreaks hmore)
    rw [moreArgumentChars, moreArgumentTokens, List.cons_append, List.cons_append,
      List.append_assoc, List.cons_append, List.append_assoc]
    exact Token.ofChars_op (by decide) hread

/-- So are all arguments of a call. -/
theorem ofChars_arguments {es : List Expr} (hes : ∀ e ∈ es, e.LexesBefore)
    (hrest : Token.Breaks rest) (h : Token.ofChars rest = .ok ts) :
    Token.ofChars ((", ".intercalate (renderAll es)).toList ++ rest) =
      .ok (argumentTokens es ++ ts) := by
  cases es with
  | nil => exact h
  | cons e es =>
    obtain ⟨he, hes⟩ := List.forall_mem_cons.mp hes
    have hmore := ofChars_moreArguments hes hrest h
    have hbreaks : Token.Breaks (moreArgumentChars es ++ rest) := breaks_moreArgumentChars es hrest
    rw [toList_intercalate_renderAll, argumentTokens, List.append_assoc, List.append_assoc]
    exact he hbreaks hmore

end Lexing

/-- The text of an expression is read as its tokens, with a break behind it. -/
theorem SpelledBy.lexesBefore {library : Library} {e : Expr}
    (he : e.SpelledBy library Token.IsShaped) : e.LexesBefore := by
  induction he with
  | numeral hshape => exact fun hrest h => Token.ofChars_numeral hshape hrest h
  | name hshape _ => exact fun hrest h => Token.ofChars_word hshape hrest h
  | unary op hoperand ih =>
    intro rest ts hrest h
    -- From the end to the front, since each token is read before what stands behind it.
    have hclose : Token.ofChars (')' :: rest) = .ok (.op ')' :: ts) :=
      Token.ofChars_op (by decide) h
    have hread := ih (.cons (by decide) _) hclose
    rw [toList_render_unary, tokens, List.cons_append, List.cons_append, List.append_assoc]
    exact Token.ofChars_op (by decide) (Token.ofChars_op op.isOperator_symbol hread)
  | binary op hleft hright ihl ihr =>
    intro rest ts hrest h
    have hclose : Token.ofChars (')' :: rest) = .ok (.op ')' :: ts) :=
      Token.ofChars_op (by decide) h
    have hreadr := ihr (.cons (by decide) _) hclose
    have hop := Token.ofChars_op op.isOperator_symbol (Token.ofChars_blank hreadr)
    have hreadl := ihl (.cons (by decide) _) (Token.ofChars_blank hop)
    rw [toList_render_binary, tokens, List.cons_append, List.append_assoc, List.cons_append,
      List.append_assoc]
    exact Token.ofChars_op (by decide) hreadl
  | call hshape _ _ ih =>
    intro rest ts hrest h
    have hclose : Token.ofChars (')' :: rest) = .ok (.op ')' :: ts) :=
      Token.ofChars_op (by decide) h
    have hread := ofChars_arguments ih (.cons (by decide) _) hclose
    rw [toList_render_call, tokens, List.cons_append, List.cons_append, List.append_assoc]
    -- The parenthesis behind the name ends the run of the name.
    exact Token.ofChars_word hshape (.cons (by decide) _)
      (Token.ofChars_op (by decide) hread)
  | @assign target value htarget hvalue iht ihv =>
    intro rest ts hrest h
    have hreadv := ihv hrest h
    have hop : Token.ofChars ('=' :: ' ' :: (value.render.toList ++ rest)) =
        .ok (.op '=' :: (value.tokens ++ ts)) :=
      Token.ofChars_op (by decide) (Token.ofChars_blank hreadv)
    rw [toList_render_assign, tokens, List.append_assoc, List.cons_append]
    exact iht (.cons (by decide) _) (Token.ofChars_blank hop)

/-- The text of an expression is read as its tokens. -/
theorem SpelledBy.ofText_render {library : Library} {e : Expr}
    (he : e.SpelledBy library Token.IsShaped) : Token.ofText e.render = .ok e.tokens := by
  have hread := he.lexesBefore .nil Token.ofChars_nil
  rw [List.append_nil, List.append_nil] at hread
  exact hread

/-- An expression that can be shown is spelled by tokens of their shapes: a function by its name,
which is a word. -/
theorem Printable.spelledBy {library : Library} (hwords : library.NamesAreWords) {e : Expr}
    (he : e.Printable library) : e.SpelledBy library Token.IsShaped := by
  induction he with
  | numeral hshape => exact .numeral hshape
  | name hshape hname => exact .name hshape hname
  | unary _ _ ih => exact .unary _ ih
  | binary _ _ _ _ ihl ihr => exact .binary _ ihl ihr
  | call hfunction _ ih => exact .call (hwords _ hfunction) hfunction ih
  | assign _ _ _ iht ihv => exact .assign iht ihv

end Expr
end Reckoner
