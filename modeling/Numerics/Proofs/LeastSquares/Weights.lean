import Mathlib.Algebra.Order.Field.Basic
import Mathlib.Tactic.Ring
import Numerics.LeastSquares.Fit
import Numerics.Proofs.Difference.Rows

/-!
# Weights as factors of the residuals

A fit looks at its residuals and their weights through the cost and the normal equations only. Both
are quadratic in a residual, because the gradient of a multiple is the multiple of the gradient. So
a fit cannot tell residuals with factors from residuals whose weights are the squares of the
factors, whatever its method is.
-/

namespace Numerics

/-! ### What a fit looks at -/

section

variable {α : Type} [RealScalar α] {n m : Nat} {r r' : Residuals α n m} {w w' : Vec α m}
  {options : Options α}

theorem LevenbergMarquardt.fit_congr (hcost : r.cost w = r'.cost w')
    (hall : ∀ x, NormalEquations.ofAll r x w options = .ofAll r' x w' options) (x₀ : Vec α n) :
  fit r w x₀ options = fit r' w' x₀ options
  := by
  have htry : tryStep r w options = tryStep r' w' options := by
    funext e s damping
    rw [tryStep, tryStep, hcost]
  have hfind : findStep r w options = findStep r' w' options := by
    funext e s
    rw [findStep, findStep, htry]
  have hstep : step r w options = step r' w' options := by
    funext k s
    rw [step, step, hall, hfind]
  rw [fit, fit, hstep, hcost]

theorem GaussNewton.fit_congr {γ : Type} [ChoiceSource γ] (hcost : r.cost w = r'.cost w')
    (hequations : ∀ x (rows : Rows γ m),
      equations r w options x rows = equations r' w' options x rows)
    (x₀ : Vec α n) (rows : Rows γ m) :
  fit r w x₀ rows options = fit r' w' x₀ rows options
  := by
  have hstep : step (γ := γ) r w options = step r' w' options := by
    funext k s
    rw [step, step, hequations, hcost]
  rw [fit, fit, hstep, hcost]

/-- Residuals with the same cost and the same normal equations, of all rows and of any choice of
them, have the same fits. -/
theorem fitWeighted_congr (hcost : r.cost w = r'.cost w')
    (hall : ∀ x, NormalEquations.ofAll r x w options = .ofAll r' x w' options)
    (hrows : ∀ x rows, NormalEquations.ofRows r x w rows options = .ofRows r' x w' rows options)
    (x₀ : Vec α n) :
  fitWeighted r w x₀ options = fitWeighted r' w' x₀ options
  := by
  have hequations : ∀ x (rows : GaussNewton.Rows Random.Xoshiro m),
      GaussNewton.equations r w options x rows = GaussNewton.equations r' w' options x rows := by
    intro x rows
    cases rows with
    | all => apply hall
    | sampled sampler => apply hrows
  rw [fitWeighted, fitWeighted]
  cases options.fitting with
  | gaussNewton => exact GaussNewton.fit_congr hcost hequations x₀ _
  | levenbergMarquardt => exact LevenbergMarquardt.fit_congr hcost hall x₀
  | subsampled => exact GaussNewton.fit_congr hcost hequations x₀ _

end

/-! ### Factors -/

variable {α : Type} [ExactScalar α] {n m : Nat} (r : Residuals α n m) (s : Vec α m)

/-- The residuals `r`, each times its factor in `s`. -/
def Residuals.scaled : Residuals α n m where
  eval x := Vec.ofFn fun i => s i * r.eval x i
  evalRow x i := s i * r.evalRow x i

/-- The squares of the factors `s`. -/
def squaredFactors : Vec α m :=
  Vec.ofFn fun i => s i ^ 2

theorem Residuals.cost_scaled :
  (r.scaled s).cost (Vec.fill 1) = r.cost (squaredFactors s)
  := by
  funext x
  rw [cost, cost]
  congr 1
  funext acc i
  rw [scaled, squaredFactors, Vec.get_fill, Vec.get_ofFn, Vec.get_ofFn]
  ring

namespace NormalEquations

/-- A factor of a row and of its residual counts as a weight. -/
theorem addRow_mul (e : NormalEquations α n) (j : Vec α n) (v t : α) :
  e.addRow (j * t) (t * v) 1 = e.addRow j v (t ^ 2)
  := by
  simp only [addRow, mk.injEq]
  constructor
  · ext p q
    simp only [Mat.get_add, Mat.get_mul, Mat.get_outer, Vec.get_mul]
    ring
  · ext p
    simp only [Vec.get_sub, Vec.get_mul]
    ring

theorem ofAll_scaled (x : Vec α n) (options : Options α) :
  ofAll (r.scaled s) x (Vec.fill 1) options = ofAll r x (squaredFactors s) options
  := by
  simp only [ofAll, row_jacobian, Residuals.scaled, squaredFactors, Vec.get_fill, Vec.get_ofFn,
    gradient_mul, addRow_mul]

theorem ofRows_scaled (x : Vec α n) (rows : List (Fin m)) (options : Options α) :
  ofRows (r.scaled s) x (Vec.fill 1) rows options = ofRows r x (squaredFactors s) rows options
  := by
  simp only [ofRows, Residuals.scaled, squaredFactors, Vec.get_fill, Vec.get_ofFn, gradient_mul,
    addRow_mul]

end NormalEquations

/-- With exact scalars, a fit of residuals with factors is the fit of the residuals with the squares
of the factors as weights, whatever the method is: the same run, with the same result or the same
error. -/
theorem fitWeighted_scaled (x₀ : Vec α n) (options : Options α) :
  fitWeighted (r.scaled s) (Vec.fill 1) x₀ options
    = fitWeighted r (Vec.ofFn fun i => s i ^ 2) x₀ options
  := by
  apply fitWeighted_congr (r.cost_scaled s)
  · intro x
    apply NormalEquations.ofAll_scaled
  · intro x rows
    apply NormalEquations.ofRows_scaled

end Numerics
