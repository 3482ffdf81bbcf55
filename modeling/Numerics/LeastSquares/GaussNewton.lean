import Numerics.LeastSquares.NormalEquations
import Numerics.LeastSquares.Result
import Numerics.LeastSquares.RowSampler
import Numerics.Search.Brent

/-!
# Fitting by linearisation

In each iteration `GaussNewton.fit` solves the normal equations at the current point and searches
along their solution for the least cost. The equations are those of all residuals, or of a new
random choice of them. The fit ends after a short step.
-/

namespace Numerics.GaussNewton

variable {α : Type} [RealScalar α] {n m : Nat} {γ : Type} [ChoiceSource γ]

/-- Which residuals the equations are made of. -/
inductive Rows (γ : Type) (m : Nat) where
  /-- All of them. -/
  | all
  /-- Those that a sampler draws. -/
  | sampled (sampler : RowSampler γ m)

/-- The state of the fit. -/
structure State (γ α : Type) (n m : Nat) where
  x : Vec α n
  cost : α
  rows : Rows γ m

/-- The residuals for the next iteration. -/
def Rows.next : Rows γ m → Rows γ m
  | .all => .all
  | .sampled s => .sampled s.next

/-- The normal equations at `x`, made of the residuals that the rows choose. -/
def equations (r : Residuals α n m) (w : Vec α m) (options : Options α) (x : Vec α n) :
    Rows γ m → NormalEquations α n
  | .all => .ofAll r x w options
  | .sampled s => .ofRows r x w s.drawn options

/-- One iteration: solve the normal equations, then search along the solution. -/
def step (r : Residuals α n m) (w : Vec α m) (options : Options α) (i : Nat)
    (s : State γ α n m) : Run α (Round (State γ α n m) (FitResult α n)) := do
  let rows := s.rows.next
  let d ← (equations r w options s.x rows).solve
  let line ← minimizeRay (fun t => r.cost w (s.x + d * t)) options
  let step := d * line.x
  let x := s.x + step
  if step.norm < options.tolerance then
    return .done ⟨x, line.value, i + 1, true⟩
  else
    return .next ⟨x, line.value, rows⟩

/-- Minimize the sum of the squares of `r` with the weights `w` from `x₀`. -/
def fit (r : Residuals α n m) (w : Vec α m) (x₀ : Vec α n) (rows : Rows γ m)
    (options : Options α) : Run α (FitResult α n) :=
  iterate (step r w options)
    (fun s => return ⟨s.x, s.cost, options.iterations, false⟩)
    options.iterations 0 ⟨x₀, r.cost w x₀, rows⟩

end Numerics.GaussNewton
