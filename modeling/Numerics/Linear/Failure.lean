/-!
# Failures of factorisation

A `Failure` says why a square matrix has no factorisation, and `Failure.message` says it in words.
-/

namespace Numerics.Linear

/-- Why a matrix has no factorisation. -/
inductive Failure where
  /-- A pivot is negligible beside the largest entry. -/
  | singular
  /-- The square of a diagonal entry of the factor is not above its floor. -/
  | notPositiveDefinite
deriving DecidableEq

/-- A failure in words. -/
def Failure.message : Failure → String
  | .singular => "singular matrix"
  | .notPositiveDefinite => "matrix not positive definite"

end Numerics.Linear
