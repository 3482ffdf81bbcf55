import Numerics.Filter.Extended
import Numerics.Filter.Kalman
import Numerics.Proofs.Steps

/-!
# Runs of filters

An `Operation` of a filter is anything that its user can do to it, with the data that it takes.
`perform` does one operation, and `run` does a list of them, in order, where an operation that fails
leaves the filter as it was.
-/

namespace Numerics

variable {α : Type} {n m c : Nat}

/-! ### Linear filters -/

namespace Kalman

/-- What can be done to a filter. -/
inductive Operation (α : Type) (n m c : Nat) where
  | reset (x : Vec α n) (error : α)
  | resetWith (x : Vec α n) (p : Mat α n n)
  | setCovariance (p : Mat α n n)
  | setTransition (a : Mat α n n)
  | setObservation (h : Mat α m n)
  | setControl (b : Mat α n c)
  | setProcessNoise (q : Mat α n n)
  | setMeasurementNoise (r : Mat α m m)
  | predict
  | predictControlled (u : Vec α c)
  | correct (z : Vec α m)

variable [RealScalar α]

/-- The filter `f` after an operation. -/
def perform (f : Kalman α n m c) : Operation α n m c → Except FilterError (Kalman α n m c)
  | .reset x error => .ok (f.reset x error)
  | .resetWith x p => .ok (f.resetWith x p)
  | .setCovariance p => .ok (f.withCovariance p)
  | .setTransition a => .ok { f with transition := a }
  | .setObservation h => .ok { f with observation := h }
  | .setControl b => .ok { f with control := b }
  | .setProcessNoise q => .ok { f with processNoise := q }
  | .setMeasurementNoise r => .ok { f with measurementNoise := r }
  | .predict => .ok f.predict
  | .predictControlled u => .ok (f.predictControlled u)
  | .correct z => f.correct z

/-- The filter `f` after the operations `ops`. -/
def run (f : Kalman α n m c) (ops : List (Operation α n m c)) : Kalman α n m c :=
  performAll perform f ops

end Kalman

/-! ### Extended filters -/

namespace ExtendedKalman

/-- What can be done to a filter. -/
inductive Operation (α : Type) (n m : Nat) where
  | reset (x : Vec α n) (error : α)
  | resetWith (x : Vec α n) (p : Mat α n n)
  | setCovariance (p : Mat α n n)
  | setMotionJacobian (a : Mat α n n)
  | setObservationJacobian (h : Mat α m n)
  | setProcessCoupling (w : Mat α n n)
  | setMeasurementCoupling (v : Mat α m m)
  | setProcessNoise (q : Mat α n n)
  | setMeasurementNoise (r : Mat α m m)
  | predict
  | predictDifferenced
  | correct (z : Vec α m)
  | correctDifferenced (z : Vec α m)

variable [RealScalar α]

/-- The filter `f` after an operation. -/
def perform (f : ExtendedKalman α n m) :
    Operation α n m → Except FilterError (ExtendedKalman α n m)
  | .reset x error => .ok (f.reset x error)
  | .resetWith x p => .ok (f.resetWith x p)
  | .setCovariance p => .ok (f.withCovariance p)
  | .setMotionJacobian a => .ok { f with motionJacobian := a }
  | .setObservationJacobian h => .ok { f with observationJacobian := h }
  | .setProcessCoupling w => .ok { f with processCoupling := w }
  | .setMeasurementCoupling v => .ok { f with measurementCoupling := v }
  | .setProcessNoise q => .ok { f with processNoise := q }
  | .setMeasurementNoise r => .ok { f with measurementNoise := r }
  | .predict => .ok f.predict
  | .predictDifferenced => .ok f.predictDifferenced
  | .correct z => f.correct z
  | .correctDifferenced z => f.correctDifferenced z

/-- The filter `f` after the operations `ops`. -/
def run (f : ExtendedKalman α n m) (ops : List (Operation α n m)) : ExtendedKalman α n m :=
  performAll perform f ops

end ExtendedKalman

end Numerics
