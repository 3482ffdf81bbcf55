import Numerics.Difference
import Numerics.Filter.Belief

/-!
# The extended Kalman filter

In an `ExtendedKalman` filter the state moves and is measured by any functions, and the covariance
follows their Jacobians. These are set from outside, or differenced at the current estimate by
`predictDifferenced` and `correctDifferenced`.
-/

namespace Numerics

/-- A filter of `n` state variables and `m` measured ones. -/
structure ExtendedKalman (α : Type) (n m : Nat) where
  belief : Belief α n m
  /-- How the state moves. -/
  motion : Vec α n → Vec α n
  /-- How the state is measured. -/
  observation : Vec α n → Vec α m
  /-- The Jacobian of the motion. -/
  motionJacobian : Mat α n n
  /-- The Jacobian of the observation. -/
  observationJacobian : Mat α m n
  /-- How the noise moves the state. -/
  processCoupling : Mat α n n
  /-- How the noise enters the measurement. -/
  measurementCoupling : Mat α m m
  /-- The covariance of the noise that moves the state. -/
  processNoise : Mat α n n
  /-- The covariance of the noise of the measurement. -/
  measurementNoise : Mat α m m

namespace ExtendedKalman

variable {α : Type} [RealScalar α] {n m : Nat}

/-- The filter with the given functions, all of whose matrices are the identity. -/
def initial (motion : Vec α n → Vec α n) (observation : Vec α n → Vec α m) :
    ExtendedKalman α n m where
  belief := .initial
  motion
  observation
  motionJacobian := Mat.identity
  observationJacobian := Mat.leading
  processCoupling := Mat.identity
  measurementCoupling := Mat.identity
  processNoise := Mat.identity
  measurementNoise := Mat.identity

/-- The filter started again from the state `x` with the covariance `p`. -/
def resetWith (f : ExtendedKalman α n m) (x : Vec α n) (p : Mat α n n) : ExtendedKalman α n m :=
  { f with belief := f.belief.reset x p }

/-- The filter started again from the state `x` with the variance `error` in all directions. -/
def reset (f : ExtendedKalman α n m) (x : Vec α n) (error : α) : ExtendedKalman α n m :=
  f.resetWith x (Mat.scaledIdentity error)

/-- The filter with the covariance `p`, before and after the measurement. -/
def withCovariance (f : ExtendedKalman α n m) (p : Mat α n n) : ExtendedKalman α n m :=
  { f with belief := f.belief.withCovariance p }

/-- The prediction of the next state, with the Jacobian that the filter has. -/
def predict (f : ExtendedKalman α n m) : ExtendedKalman α n m :=
  { f with
    belief := f.belief.predict (f.motion f.belief.x)
      (Belief.propagate f.motionJacobian f.belief.p
        + Belief.propagate f.processCoupling f.processNoise) }

/-- The prediction of the next state, with the Jacobian differenced at the last estimate. -/
def predictDifferenced (f : ExtendedKalman α n m) : ExtendedKalman α n m :=
  { f with motionJacobian := scaledJacobian f.motion f.belief.x }.predict

/-- The filter after the measurement `z`, with the Jacobian that the filter has. -/
def correct (f : ExtendedKalman α n m) (z : Vec α m) :
    Except FilterError (ExtendedKalman α n m) := do
  let belief ← f.belief.correct f.observationJacobian
    (Belief.propagate f.measurementCoupling f.measurementNoise)
    (f.observation f.belief.xPrior) z
  return { f with belief }

/-- The filter after the measurement `z`, with the Jacobian differenced at the prediction. A
correction that fails leaves no new Jacobian behind. -/
def correctDifferenced (f : ExtendedKalman α n m) (z : Vec α m) :
    Except FilterError (ExtendedKalman α n m) :=
  { f with observationJacobian := scaledJacobian f.observation f.belief.xPrior }.correct z

end ExtendedKalman

end Numerics
