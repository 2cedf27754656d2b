/-
The functions that an expression can call.

A library gives names to functions. The grammar asks it which words open a call, and evaluation
asks it what the call does. Integration and differentiation are in it for the grammar's sake: they
take an expression, so they cannot be applied to numbers, and evaluation treats them before it
computes any argument.

Every function works on the float of its argument. The factorial wants this float to be equal to a
whole number, up to a limit that keeps the length of the factorial reasonable, and is exact then.
-/
import Reckoner.Angle
import Reckoner.Binary64
import Reckoner.Value.Arithmetic

set_option autoImplicit false

namespace Reckoner

/-! ## Functions -/

/-- The real functions of one argument that have nothing to do with angles. -/
inductive Elementary where
  | ln
  | log10
  | sqrt
  | abs
  | exp
  | floor
  | ceil
  deriving DecidableEq, Repr

/-- A real function at a point. -/
def Elementary.apply : Elementary → Float → Float
  | .ln, x => x.log
  | .log10, x => x.log10
  | .sqrt, x => x.sqrt
  | .abs, x => x.abs
  | .exp, x => x.exp
  | .floor, x => x.floor
  | .ceil, x => x.ceil

/-- The kinds of function that a library can hold. -/
inductive Function where
  | elementary (f : Elementary)
  | trig (f : Trig)
  | factorial
  | integral
  | derivative
  deriving DecidableEq, Repr

/-- How many arguments a function takes. -/
def Function.arity : Function → Nat
  | .elementary _ | .trig _ | .factorial => 1
  | .integral => 3
  | .derivative => 2

/-- Requires a number of arguments to be the right one. -/
def Function.checkArity (name : String) (f : Function) (received : Nat) : Except EvalError Unit :=
  if received = f.arity then .ok () else .error (.wrongArity name f.arity received)

/-! ## Factorial -/

/-- The greatest number whose factorial is computed. -/
def maxFactorial : Nat := 5000

/-- The product of the numbers from 2 to `n`, taken from left to right. -/
def factorial (n : Nat) : Nat :=
  (List.range' 2 (n - 1)).foldl (fun product k => product * k) 1

/-- The factorial of a whole number between 0 and `maxFactorial`. -/
def factorialWithin (n : Int) : Except FactorialFault Int :=
  if n < 0 then .error .negative
  else if maxFactorial < n then .error (.tooLarge maxFactorial)
  else .ok (factorial n.toNat)

/-- The factorial of a value. It is asked of the float of the value, which has to be equal to a whole
number. An infinite float is equal to none, so a whole number too large for the floats counts as no
whole number. -/
def factorialOf (v : Value) : Except FactorialFault Int :=
  match (Binary64.ofFloat v.toFloat).toInt? with
  | some n => factorialWithin n
  | none => .error (.notWhole v.toFloat)

/-! ## Libraries -/

/-- Functions under their names. -/
structure Library where
  entries : List (String × Function)
  deriving Repr

namespace Library

/-- The functions of the calculator. -/
def standard : Library where
  entries := [
    ("abs", .elementary .abs),
    ("ceil", .elementary .ceil),
    ("cos", .trig .cos),
    ("deriv", .derivative),
    ("exp", .elementary .exp),
    ("fact", .factorial),
    ("floor", .elementary .floor),
    ("integral", .integral),
    ("ln", .elementary .ln),
    ("log", .elementary .log10),
    ("sin", .trig .sin),
    ("sqrt", .elementary .sqrt),
    ("tan", .trig .tan)]

instance : Inhabited Library := ⟨standard⟩

/-- The function of a name. -/
def get? (library : Library) (name : String) : Option Function :=
  library.entries.lookup name

/-- Whether a name is the name of a function. -/
def contains (library : Library) (name : String) : Bool :=
  (library.get? name).isSome

/-- The names of the functions, in the order of the library. -/
def names (library : Library) : List String :=
  library.entries.map Prod.fst

/-- Every function is found under a name of the library. -/
theorem mem_names_of_contains {library : Library} {function : String}
    (h : library.contains function = true) : function ∈ library.names := by
  obtain ⟨entry, hmem, hentry⟩ := List.lookup_isSome_iff.mp h
  exact List.mem_map.mpr ⟨entry, hmem, (eq_of_beq hentry).symm⟩

/-- A function applied to values, by name. -/
def call (library : Library) (mode : AngleMode) (name : String) (arguments : List Value) :
    Except EvalError Value := do
  let some f := library.get? name | .error (.unknownFunction name)
  f.checkArity name arguments.length
  match f, arguments with
  | .elementary g, [v] => .ok (.real (g.apply v.toFloat))
  | .trig g, [v] => .ok (.real (g.apply mode v.toFloat))
  | .factorial, [v] => ((factorialOf v).map .whole).mapError .factorial
  | _, _ => .error (.needsExpression name)

end Library
end Reckoner
