import Numerics.Iteration
import Numerics.LeastSquares.NormalEquations
import Numerics.LeastSquares.Result

/-!
# Fitting by damped linearisation

In each iteration `LevenbergMarquardt.fit` solves the normal equations with a raised diagonal. A
solution that lowers the cost is taken, and the damping lowered; otherwise the damping is raised and
the equations are solved again. The fit ends where the right side of the equations is small, where a
solution is negligible beside the point, or where the damping exceeds its limit.
-/

namespace Numerics.LevenbergMarquardt

variable {α : Type} [RealScalar α] {n m : Nat}

/-- The damping beyond which the search for a step is given up. -/
def largestDamping : α :=
  nat 1000000000000

/-- The damping is never lowered below this. -/
def smallestDamping : α :=
  ratio 1 1000000000000

/-- The state of the fit. -/
structure State (α : Type) (n : Nat) where
  x : Vec α n
  cost : α
  damping : α

/-- How the search for a step ends. -/
inductive Trial (α : Type) (n : Nat) where
  /-- At a point of lower cost. -/
  | accepted (s : State α n)
  /-- With a step that is negligible beside the point. -/
  | negligible
  /-- With the damping beyond its limit. -/
  | exhausted

/-- One trial: solve the equations `e` with the given damping, and look at the cost there. -/
def tryStep (r : Residuals α n m) (w : Vec α m) (options : Options α)
    (e : NormalEquations α n) (s : State α n) (damping : α) :
    Except SolverError (Round α (Trial α n)) := do
  let d ← (e.damped damping).solve
  if d.norm < options.tolerance * (s.x.norm + options.tolerance) then
    return .done .negligible
  else
    let x := s.x + d
    let cost := r.cost w x
    if cost < s.cost then
      let lowered := maxNum (damping * options.dampingDecrease) smallestDamping
      return .done (.accepted ⟨x, cost, lowered⟩)
    else
      let raised := damping * options.dampingIncrease
      if raised > largestDamping then
        return .done .exhausted
      else
        return .next raised

/-- The end of the search for a step from `s`: the damping is raised until a step lowers the cost,
or there is a reason to give up. -/
def findStep (r : Residuals α n m) (w : Vec α m) (options : Options α)
    (e : NormalEquations α n) (s : State α n) : Except SolverError (Trial α n) :=
  iterate (fun _ => tryStep r w options e s) (fun _ => .error .dampingUnsettled)
    options.dampingRounds 0 s.damping

/-- One iteration: set up the normal equations, then find a step. -/
def step (r : Residuals α n m) (w : Vec α m) (options : Options α) (i : Nat) (s : State α n) :
    Run α (Round (State α n) (FitResult α n)) := do
  let e := NormalEquations.ofAll r s.x w options
  if e.rhs.norm < options.tolerance then
    return .done ⟨s.x, s.cost, i, true⟩
  else
    match ← findStep r w options e s with
    | .accepted s => return .next s
    | .negligible => return .done ⟨s.x, s.cost, i, true⟩
    | .exhausted =>
      Run.announce (.dampingExhausted i)
      return .done ⟨s.x, s.cost, i, false⟩

/-- Minimize the sum of the squares of `r` with the weights `w` from `x₀`. -/
def fit (r : Residuals α n m) (w : Vec α m) (x₀ : Vec α n) (options : Options α) :
    Run α (FitResult α n) :=
  iterate (step r w options)
    (fun s => return ⟨s.x, s.cost, options.iterations, false⟩)
    options.iterations 0 ⟨x₀, r.cost w x₀, options.damping⟩

end Numerics.LevenbergMarquardt
