import Numerics.Scalar.Machine

/-!
# Options

`Options α` is the one record that configures the searches and the solvers over the scalars `α`.
Its first fields choose among methods, which are inductive types of their own, each with a `name`;
the others are budgets and sizes. `Options.double` and `Options.single` are the defaults of the two
machine formats, which differ in the tolerance only.
-/

namespace Numerics

/-- How a function is differenced. -/
inductive Differencing where
  /-- One central difference. -/
  | central
  /-- Three central differences, extrapolated to step zero. -/
  | ridders
deriving DecidableEq

/-- How a function of several variables is minimized. -/
inductive Descent where
  /-- The simplex of Nelder and Mead, which needs no derivatives. -/
  | simplex
  /-- Conjugate gradients, with a line search along each direction. -/
  | conjugateGradient
deriving DecidableEq

/-- How constraints enter the objective. -/
inductive Penalty where
  /-- The squared violation, with a growing weight. -/
  | exterior
  /-- The squared violation and a multiplier for each constraint. -/
  | lagrangian
deriving DecidableEq

/-- How a sum of squares is minimized. -/
inductive Fitting where
  /-- Full linearisation and a line search. -/
  | gaussNewton
  /-- Damped linearisation. -/
  | levenbergMarquardt
  /-- Linearisation of a random choice of rows, and a line search. -/
  | subsampled
deriving DecidableEq

/-- What a residual costs. -/
inductive Loss where
  /-- Its square. -/
  | squared
  /-- Its square near zero, its absolute value far from it. -/
  | huber
  /-- Its square near zero, a constant far from it. -/
  | tukey
deriving DecidableEq

/-- The name of a way of differencing. -/
def Differencing.name : Differencing → String
  | .central => "Central"
  | .ridders => "Ridders"

/-- The name of a way of minimizing. -/
def Descent.name : Descent → String
  | .simplex => "Simplex"
  | .conjugateGradient => "ConjGrad"

/-- The name of a treatment of constraints. -/
def Penalty.name : Penalty → String
  | .exterior => "ExteriorPenalty"
  | .lagrangian => "Lagrangian"

/-- The name of a way of fitting. -/
def Fitting.name : Fitting → String
  | .gaussNewton => "GaussNewton"
  | .levenbergMarquardt => "LevenbergMarquardt"
  | .subsampled => "SubsampledGaussNewton"

/-- The name of a loss. -/
def Loss.name : Loss → String
  | .squared => "None"
  | .huber => "Huber"
  | .tukey => "Tukey"

/-- The configuration of the searches and the solvers. -/
structure Options (α : Type) where
  /-- How derivatives are taken. -/
  differencing : Differencing
  /-- How unconstrained problems are solved. -/
  descent : Descent
  /-- How constraints are treated. -/
  penalty : Penalty
  /-- How sums of squares are minimized. -/
  fitting : Fitting
  /-- The loss of robust fits. -/
  loss : Loss
  /-- The budget of each inner iteration. -/
  iterations : Nat
  /-- What counts as small: a gradient, a step, a violation, a change of weight. -/
  tolerance : α
  /-- The step of gradients and Jacobians; a hundred times it is the edge of the first simplex. -/
  spacing : α
  /-- The step of the slope in the root search. -/
  secantSpacing : α
  /-- The first weight of the exterior penalty. -/
  exteriorWeight : α
  /-- The first weight of the augmented Lagrangian. -/
  lagrangianWeight : α
  /-- The factor by which a penalty weight grows. -/
  weightGrowth : α
  /-- The budget of penalty rounds. -/
  penaltyRounds : Nat
  /-- The first damping of a damped fit. -/
  damping : α
  /-- The factor of the damping after a rejected step. -/
  dampingIncrease : α
  /-- The factor of the damping after an accepted step. -/
  dampingDecrease : α
  /-- The rows of a subsampled fit; zero stands for half of them, rounded up. -/
  sampleSize : Nat
  /-- The seed of the choice of rows. -/
  seed : UInt64
  /-- Where the Huber loss leaves the square. -/
  huberThreshold : α
  /-- Where the Tukey loss becomes constant. -/
  tukeyThreshold : α
  /-- The budget of reweighting rounds. -/
  reweightRounds : Nat
  /-- The budget of rejected steps in a row. A format of 64 bits has no more numbers than this, so a
  longer run would repeat a damping and never end. -/
  dampingRounds : Nat := UInt64.size

namespace Options

/-- The default options for a given tolerance. -/
def standard {α : Type} [RealScalar α] (tolerance : α) : Options α where
  differencing := .central
  descent := .conjugateGradient
  penalty := .exterior
  fitting := .gaussNewton
  loss := .squared
  iterations := 1000
  tolerance
  spacing := ratio 1 100
  secantSpacing := ratio 1 1000
  exteriorWeight := nat 1000
  lagrangianWeight := nat 10
  weightGrowth := nat 10
  penaltyRounds := 20
  damping := ratio 1 1000
  dampingIncrease := nat 10
  dampingDecrease := ratio 1 10
  sampleSize := 0
  seed := 0
  huberThreshold := ratio 1345 1000
  tukeyThreshold := ratio 4685 1000
  reweightRounds := 50

/-- The default options in double precision. -/
def double : Options Float :=
  standard (ratio 1 1000000)

/-- The default options in single precision. -/
def single : Options Float32 :=
  standard (ratio 1 10000)

end Options

end Numerics
