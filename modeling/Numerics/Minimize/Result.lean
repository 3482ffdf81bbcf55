import Numerics.Vec

/-!
# Minima

`Minimum α n` is what a minimization of a function of `n` variables ends with.
-/

namespace Numerics

/-- What a minimization of a function of `n` variables ended with. -/
structure Minimum (α : Type) (n : Nat) where
  /-- The point found. -/
  x : Vec α n
  /-- The objective there, without any penalty. -/
  value : α
  /-- The number of iterations, or of penalty rounds where there are constraints. -/
  iterations : Nat
  /-- Whether the minimization ended at a minimum, as far as it can tell. -/
  converged : Bool

end Numerics
