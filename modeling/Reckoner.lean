import Reckoner.Calculation
import Reckoner.Session.Basic
import Reckoner.Settings.File
import Reckoner.Proofs.Display.RoundTrip
import Reckoner.Proofs.Display.Ambiguity
import Reckoner.Proofs.Evaluation.Integers
import Reckoner.Proofs.Evaluation.Footprint
import Reckoner.Proofs.Evaluation.Agreement
import Reckoner.Proofs.Evaluation.Failures
import Reckoner.Proofs.Calculation.Phases
import Reckoner.Proofs.Calculation.Parentheses
import Reckoner.Proofs.Calculation.Assignment
import Reckoner.Proofs.Session.Chaining
import Reckoner.Proofs.Session.Failure
import Reckoner.Proofs.Session.OperatorRuns
import Reckoner.Proofs.Session.Points
import Reckoner.Proofs.Session.Preparation
import Reckoner.Proofs.Session.Recalculation
import Reckoner.Proofs.Session.Typing
import Reckoner.Proofs.Grammar.Juxtaposition
import Reckoner.Proofs.Calculation.Working
import Reckoner.Proofs.Calculus.Course
import Reckoner.Proofs.Calculus.Termination
import Reckoner.Proofs.Session.PointKey
import Reckoner.Proofs.Value.Screen
import Reckoner.Proofs.Grammar.Size
import Reckoner.Proofs.Evaluation.Numerals
import Reckoner.Proofs.Session.FunctionKey
import Reckoner.Proofs.Calculus.Polynomials
import Reckoner.Proofs.Evaluation.Factorial
import Reckoner.Proofs.Evaluation.AngleMode
import Reckoner.Proofs.Settings.RoundTrip
import Reckoner.Proofs.Grammar.Powers
