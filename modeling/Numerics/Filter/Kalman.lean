import Numerics.Filter.Belief

/-!
# The Kalman filter

In a `Kalman` filter the state moves linearly, driven by a control and by noise, and is measured
linearly, with noise.
-/

namespace Numerics

/-- A filter of `n` state variables, `m` measured ones and `c` controls. -/
structure Kalman (α : Type) (n m c : Nat) where
  belief : Belief α n m
  /-- How the state moves by itself. -/
  transition : Mat α n n
  /-- How the state is measured. -/
  observation : Mat α m n
  /-- How the control moves the state. -/
  control : Mat α n c
  /-- The covariance of the noise that moves the state. -/
  processNoise : Mat α n n
  /-- The covariance of the noise of the measurement. -/
  measurementNoise : Mat α m m

namespace Kalman

variable {α : Type} [RealScalar α] {n m c : Nat}

/-- The filter all of whose matrices are the identity, except that the control does nothing. -/
def initial : Kalman α n m c where
  belief := .initial
  transition := Mat.identity
  observation := Mat.leading
  control := 0
  processNoise := Mat.identity
  measurementNoise := Mat.identity

/-- The filter started again from the state `x` with the covariance `p`. -/
def resetWith (f : Kalman α n m c) (x : Vec α n) (p : Mat α n n) : Kalman α n m c :=
  { f with belief := f.belief.reset x p }

/-- The filter started again from the state `x` with the variance `error` in all directions. -/
def reset (f : Kalman α n m c) (x : Vec α n) (error : α) : Kalman α n m c :=
  f.resetWith x (Mat.scaledIdentity error)

/-- The filter with the covariance `p`, before and after the measurement. -/
def withCovariance (f : Kalman α n m c) (p : Mat α n n) : Kalman α n m c :=
  { f with belief := f.belief.withCovariance p }

/-- The covariance of the state after it moved. -/
def predictedCovariance (f : Kalman α n m c) : Mat α n n :=
  Belief.propagate f.transition f.belief.p + f.processNoise

/-- The prediction of the next state. -/
def predict (f : Kalman α n m c) : Kalman α n m c :=
  { f with
    belief := f.belief.predict (f.transition.mulVec f.belief.x) f.predictedCovariance }

/-- The prediction of the next state under the control `u`. -/
def predictControlled (f : Kalman α n m c) (u : Vec α c) : Kalman α n m c :=
  { f with
    belief := f.belief.predict (f.transition.mulVec f.belief.x + f.control.mulVec u)
      f.predictedCovariance }

/-- The filter after the measurement `z`. -/
def correct (f : Kalman α n m c) (z : Vec α m) : Except FilterError (Kalman α n m c) := do
  let belief ← f.belief.correct f.observation f.measurementNoise
    (f.observation.mulVec f.belief.xPrior) z
  return { f with belief }

end Kalman

end Numerics
