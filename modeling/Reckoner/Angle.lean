/-
Angles, and the functions of an angle.

How an angle is measured is a setting of the session and no part of an expression. It is applied
to the argument before the function is, so everything else works in radians.
-/

set_option autoImplicit false

namespace Reckoner

/-- The units in which angles are given. -/
inductive AngleMode where
  | degrees
  | radians
  deriving DecidableEq, Repr, Inhabited

/-- An angle in this unit, as radians. -/
def AngleMode.toRadians (mode : AngleMode) (angle : Float) : Float :=
  match mode with
  | .degrees => angle * 3.141592653589793 / 180.0
  | .radians => angle

/-- The label on the screen. -/
def AngleMode.label : AngleMode → String
  | .degrees => "DEG"
  | .radians => "RAD"

/-- The functions of an angle. -/
inductive Trig where
  | sin
  | cos
  | tan
  deriving DecidableEq, Repr

/-- A function of an angle given in this unit. -/
def Trig.apply (f : Trig) (mode : AngleMode) (angle : Float) : Float :=
  let r := mode.toRadians angle
  match f with
  | .sin => r.sin
  | .cos => r.cos
  | .tan => r.tan

end Reckoner
