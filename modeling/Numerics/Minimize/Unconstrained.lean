import Numerics.Minimize.ConjugateGradient
import Numerics.Minimize.Simplex

/-!
# Unconstrained minimization

`minimizeWith` minimizes a function by the method that the options choose, given its gradient.
`minimize` differences the function for its gradient, and announces how the minimization ended.
-/

namespace Numerics

variable {α : Type} [RealScalar α] {n : Nat}

/-- Minimize `f`, whose gradient is `grad`, by the method that the options choose, without
announcing the end. Only conjugate gradients look at the gradient. -/
def minimizeWith (f : Vec α n → α) (grad : Vec α n → Vec α n) (x₀ : Vec α n)
    (options : Options α) : Run α (Minimum α n) :=
  match options.descent with
  | .conjugateGradient => ConjugateGradient.minimum f grad x₀ options
  | .simplex => Run.result (Simplex.minimum f x₀ options)

/-- Minimize `f` from `x₀`. -/
def minimize (f : Vec α n → α) (x₀ : Vec α n) (options : Options α) : Run α (Minimum α n) := do
  let r ← minimizeWith f (fun x => gradient f x options) x₀ options
  Run.announce
    (if r.converged then .descentSettled options.descent r.iterations r.value
     else .descentUnsettled options.descent r.iterations)
  return r

end Numerics
