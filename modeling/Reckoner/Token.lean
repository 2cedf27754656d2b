/-
Tokens, and how text falls into them.

Blanks separate tokens and are otherwise ignored. A numeral is a run of digits and points with an
optional power of ten, a name a letter or underscore followed by letters, digits and underscores,
and each remaining character stands for itself. Both kinds of run are as long as they can be; that
a numeral has at most one point is not asked here, but when its value is.

The letter `e` belongs to a numeral only if a digit follows it, perhaps behind a sign. So `12.5e`
is a numeral and a name, while `12.5e+3` is one numeral.
-/

set_option autoImplicit false

namespace Reckoner

/-- The pieces of an input line. -/
inductive Token where
  | numeral (text : String)
  | word (text : String)
  | op (symbol : Char)
  deriving DecidableEq, Repr

namespace Token

/-- The characters a token was made of. -/
def text : Token → String
  | .numeral text => text
  | .word text => text
  | .op symbol => symbol.toString

/-- Tokens with one blank between neighbours. -/
def showAll (tokens : List Token) : String :=
  " ".intercalate (tokens.map text)

/-! ## Classes of characters -/

/-- Blanks: the characters that Unicode calls white space. -/
def isBlank (c : Char) : Bool :=
  let n := c.toNat
  (9 ≤ n && n ≤ 13) || n == 32 || n == 0x85 || n == 0xa0 || n == 0x1680 ||
    (0x2000 ≤ n && n ≤ 0x200a) || n == 0x2028 || n == 0x2029 || n == 0x202f || n == 0x205f ||
    n == 0x3000

/-- What the mantissa of a numeral is made of. -/
def isMantissaChar (c : Char) : Bool :=
  c.isDigit || c == '.'

/-- What a name starts with. -/
def isWordStart (c : Char) : Bool :=
  c.isAlpha || c == '_'

/-- What a name goes on with. -/
def isWordChar (c : Char) : Bool :=
  c.isAlphanum || c == '_'

/-- The characters that are tokens by themselves. -/
def isOperator (c : Char) : Bool :=
  c ∈ ['+', '-', '*', '/', '%', '^', '(', ')', ',', '=']

/-! ## Runs -/

/-- Takes a sign off the front, if there is one. -/
def splitSign : List Char → List Char × List Char
  | '+' :: rest => (['+'], rest)
  | '-' :: rest => (['-'], rest)
  | cs => ([], cs)

/-- Takes a power of ten off the front: the letter, at most one sign, and the digits, of which
there must be one. Otherwise takes nothing. -/
def splitPower : List Char → List Char × List Char
  | [] => ([], [])
  | e :: rest =>
    let sign := (splitSign rest).1
    let digits := (splitSign rest).2.takeWhile Char.isDigit
    if (e = 'e' ∨ e = 'E') ∧ digits ≠ [] then
      (e :: (sign ++ digits), (splitSign rest).2.dropWhile Char.isDigit)
    else ([], e :: rest)

/-- Takes the rest of a numeral off the front, once its first character is gone. -/
def splitNumeral (cs : List Char) : List Char × List Char :=
  let power := splitPower (cs.dropWhile isMantissaChar)
  (cs.takeWhile isMantissaChar ++ power.1, power.2)

/-- Takes the rest of a name off the front, once its first character is gone. -/
def splitWord (cs : List Char) : List Char × List Char :=
  (cs.takeWhile isWordChar, cs.dropWhile isWordChar)

/-- Nothing is lost when a sign is taken off. -/
theorem splitSign_append (cs : List Char) : (splitSign cs).1 ++ (splitSign cs).2 = cs := by
  unfold splitSign
  split <;> rfl

/-- Nothing is lost when a power of ten is taken off. -/
theorem splitPower_append (cs : List Char) : (splitPower cs).1 ++ (splitPower cs).2 = cs := by
  cases cs with
  | nil => rfl
  | cons e rest =>
    simp only [splitPower]
    split
    · rw [List.cons_append, List.append_assoc, List.takeWhile_append_dropWhile, splitSign_append]
    · rfl

/-- Nothing is lost when a numeral is taken off. -/
theorem splitNumeral_append (cs : List Char) :
    (splitNumeral cs).1 ++ (splitNumeral cs).2 = cs := by
  simp only [splitNumeral, List.append_assoc, splitPower_append, List.takeWhile_append_dropWhile]

/-- Nothing is lost when a name is taken off. -/
theorem splitWord_append (cs : List Char) : (splitWord cs).1 ++ (splitWord cs).2 = cs :=
  List.takeWhile_append_dropWhile

/-- What follows a numeral is no longer than the text it was taken from. -/
theorem length_splitNumeral_le (cs : List Char) : (splitNumeral cs).2.length ≤ cs.length := by
  have h := congrArg List.length (splitNumeral_append cs)
  rw [List.length_append] at h
  omega

/-- What follows a name is no longer than the text it was taken from. -/
theorem length_splitWord_le (cs : List Char) : (splitWord cs).2.length ≤ cs.length := by
  have h := congrArg List.length (splitWord_append cs)
  rw [List.length_append] at h
  omega

/-! ## The lexer -/

/-- The tokens of a text, or the first character that belongs to none. -/
def ofChars (cs : List Char) : Except Char (List Token) :=
  match cs with
  | [] => .ok []
  | c :: rest =>
    if isBlank c then ofChars rest
    else if isMantissaChar c then do
      let tokens ← ofChars (splitNumeral rest).2
      return .numeral (String.ofList (c :: (splitNumeral rest).1)) :: tokens
    else if isWordStart c then do
      let tokens ← ofChars (splitWord rest).2
      return .word (String.ofList (c :: (splitWord rest).1)) :: tokens
    else if isOperator c then do
      let tokens ← ofChars rest
      return .op c :: tokens
    else .error c
termination_by cs.length
decreasing_by
  · simp only [List.length_cons]; omega
  · exact Nat.lt_succ_of_le (length_splitNumeral_le rest)
  · exact Nat.lt_succ_of_le (length_splitWord_le rest)
  · simp only [List.length_cons]; omega

/-- The tokens of a line of input, or the first character that belongs to none. -/
def ofText (text : String) : Except Char (List Token) :=
  ofChars text.toList

end Token
end Reckoner
