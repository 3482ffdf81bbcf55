import Numerics.Vec

/-!
# Fits

`FitResult α n` is what a least-squares fit of `n` unknowns ends with.
-/

namespace Numerics

/-- What a least-squares fit of `n` unknowns ended with. -/
structure FitResult (α : Type) (n : Nat) where
  /-- The point found. -/
  x : Vec α n
  /-- The sum of the squared residuals there. -/
  cost : α
  /-- The number of iterations, or of reweighting rounds in a robust fit. -/
  iterations : Nat
  /-- Whether the fit ended at a minimum, as far as it can tell. -/
  converged : Bool

end Numerics
