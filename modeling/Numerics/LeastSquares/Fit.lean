import Numerics.LeastSquares.GaussNewton
import Numerics.LeastSquares.LevenbergMarquardt

/-!
# Nonlinear least squares

`fitWeighted` minimizes a weighted sum of squares by the method that the options choose, and `fit`
minimizes the plain sum and announces how that ended.
-/

namespace Numerics

variable {α : Type} [RealScalar α] {n m : Nat}

/-- Minimize the sum of the squares of `r` with the weights `w` by the method that the options
choose, without announcing the end. -/
def fitWeighted (r : Residuals α n m) (w : Vec α m) (x₀ : Vec α n) (options : Options α) :
    Run α (FitResult α n) :=
  match options.fitting with
  | .gaussNewton => GaussNewton.fit r w x₀ (.all : GaussNewton.Rows Random.Xoshiro m) options
  | .levenbergMarquardt => LevenbergMarquardt.fit r w x₀ options
  | .subsampled =>
    let sampler := RowSampler.start (Random.Xoshiro.ofSeed options.seed) options.sampleSize n
    GaussNewton.fit r w x₀ (.sampled sampler) options

/-- Minimize the sum of the squares of `r` from `x₀`. -/
def fit (r : Residuals α n m) (x₀ : Vec α n) (options : Options α) : Run α (FitResult α n) := do
  let result ← fitWeighted r (Vec.fill 1) x₀ options
  Run.announce
    (if result.converged then .fitSettled options.fitting result.iterations result.cost
     else .fitUnsettled options.fitting options.iterations)
  return result

end Numerics
