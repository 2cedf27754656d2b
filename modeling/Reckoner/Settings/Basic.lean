/-
The settings of a session.
-/
import Reckoner.Angle

set_option autoImplicit false

namespace Reckoner

/-- What a user can choose: the unit of angles, and how long an entry can grow by typing. -/
structure Settings where
  mode : AngleMode := .degrees
  entryLimit : Nat := 100
  deriving DecidableEq, Repr, Inhabited

end Reckoner
