import Numerics.Linear.LU

/-!
# Beliefs about a hidden state

A `Belief` is an estimate of a state with its covariance, before and after the last measurement.
The filters of this library correct their beliefs in the same way, `Belief.correct`: the gain weighs
the uncertainty of the prediction against that of the measurement, and the covariance is made
symmetric after the correction. A correction that fails gives no belief at all.
-/

namespace Numerics

/-- Why a measurement could not be used. -/
inductive FilterError where
  /-- The covariance of the difference from the predicted measurement has no inverse. -/
  | singularInnovation
deriving DecidableEq

/-- The error in words. -/
def FilterError.message : FilterError → String
  | .singularInnovation => "innovation covariance is singular"

/-- What a filter of `n` state variables and `m` measured ones believes. -/
structure Belief (α : Type) (n m : Nat) where
  /-- The estimate after the last measurement. -/
  x : Vec α n
  /-- The estimate before the next measurement. -/
  xPrior : Vec α n
  /-- The covariance of the estimate after the last measurement. -/
  p : Mat α n n
  /-- The covariance of the estimate before the next measurement. -/
  pPrior : Mat α n n
  /-- The gain of the last correction. -/
  gain : Mat α n m

namespace Belief

variable {α : Type} [RealScalar α] {n m : Nat}

/-- The state is zero with unit covariance, and nothing was measured. -/
def initial : Belief α n m where
  x := 0
  xPrior := 0
  p := Mat.identity
  pPrior := Mat.identity
  gain := 0

/-- The belief `b` with the covariance `p`, before and after the measurement. -/
def withCovariance (b : Belief α n m) (p : Mat α n n) : Belief α n m :=
  { b with p, pPrior := p }

/-- The belief `b` with the estimate `x` and the covariance `p`, before and after the measurement.
-/
def reset (b : Belief α n m) (x : Vec α n) (p : Mat α n n) : Belief α n m :=
  { b with x, xPrior := x }.withCovariance p

/-- The belief `b` with the estimate `x` and the covariance `p` before the next measurement. -/
def predict (b : Belief α n m) (x : Vec α n) (p : Mat α n n) : Belief α n m :=
  { b with xPrior := x, pPrior := p }

/-- The covariance of the image under `a` of a state with the covariance `p`. -/
def propagate {k : Nat} (a : Mat α k n) (p : Mat α n n) : Mat α k k :=
  a * p * a.transpose

/-- The gain for the observation matrix `h` and the covariance `innovation` of the difference from
the predicted measurement. -/
def gainFor (p : Mat α n n) (h : Mat α m n) (innovation : Mat α m m) :
    Except FilterError (Mat α n m) :=
  match innovation.inverse with
  | .ok inverse => .ok (p * h.transpose * inverse)
  | .error _ => .error .singularInnovation

/-- The belief after the measurement `z`, where `predicted` was expected, for the observation matrix
`h` and the covariance `noise` of the error of the measurement. -/
def correct (b : Belief α n m) (h : Mat α m n) (noise : Mat α m m) (predicted z : Vec α m) :
    Except FilterError (Belief α n m) := do
  let k ← gainFor b.pPrior h (propagate h b.pPrior + noise)
  return { b with
    x := b.xPrior + k.mulVec (z - predicted)
    p := (((Mat.identity : Mat α n n) - k * h) * b.pPrior).symmetrized
    gain := k }

end Belief

end Numerics
