import Numerics.LeastSquares.Fit
import Numerics.Scalar.Power
import Numerics.Sorting.Quick

/-!
# Robust least squares

`robustFit` keeps outliers from dominating a fit by giving large residuals small weights. Each round
fits with the weights of the round before, divides the new residuals by a multiple of their median
absolute value, and computes new weights from the quotients. The rounds end when no weight changes
much.
-/

namespace Numerics

variable {α : Type} [RealScalar α] {n m : Nat}

namespace Loss

/-- The weight of the scaled residual `u` under the Huber loss with the threshold `k`. -/
def huberWeight (u k : α) : α :=
  if abs u ≤ k then 1 else k / abs u

/-- The weight of the scaled residual `u` under the Tukey loss, which drops to zero at the threshold
`c`. -/
def tukeyWeight (u c : α) : α :=
  if abs u < c then
    let t := 1 - natPower (u / c) 2
    t * t
  else
    0

/-- The weight of the scaled residual `u`. -/
def weight (options : Options α) (u : α) : Loss → α
  | squared => 1
  | huber => huberWeight u options.huberThreshold
  | tukey => tukeyWeight u options.tukeyThreshold

end Loss

/-- The scalars `xs` in increasing order. Numbers have only one such order. Where some are no
numbers, a quicksort decides, or finds that there is none. -/
def increasing (xs : List α) : Except SolverError (List α) :=
  let before (a b : α) : Bool := a < b
  if xs.any isNaN then
    match quickSort? before xs with
    | some sorted => .ok sorted
    | none => .error .noOrder
  else
    .ok (insertionSort before xs)

/-- The scalar in the middle of `xs`, or the mean of the two in the middle; zero if there is
none. -/
def middle (xs : List α) : α :=
  let upper := xs.getD (xs.length / 2) 0
  if xs.isEmpty then
    0
  else if xs.length % 2 = 1 then
    upper
  else
    (xs.getD (xs.length / 2 - 1) 0 + upper) * half

/-- The median of the absolute values of the entries of `v`. -/
def medianAbs (v : Vec α m) : Except SolverError α := do
  let sorted ← increasing (v.toList.map abs)
  return middle sorted

namespace Robust

/-- The state between rounds. -/
structure State (α : Type) (n m : Nat) where
  x : Vec α n
  weights : Vec α m

/-- The standard deviation of normal residuals is this multiple of their median absolute value. -/
def medianFactor : α :=
  ratio 14826 10000

/-- The scale of the residuals `v`, which is at least the tolerance. -/
def scale (options : Options α) (v : Vec α m) : Except SolverError α := do
  let deviation ← medianAbs v
  return maxNum (medianFactor * deviation) options.tolerance

/-- The weights for the residuals `v` of the scale `s`. -/
def weights (options : Options α) (s : α) (v : Vec α m) : Vec α m :=
  Vec.ofFn fun i => options.loss.weight options (v i / s)

/-- The largest change of a weight. -/
def change (new old : Vec α m) : α :=
  Fin.foldl m (fun c i => maxNum c (abs (new i - old i))) 0

/-- One round: fit with the weights of `s`, then weigh the new residuals. -/
def step (r : Residuals α n m) (options : Options α) (round : Nat) (s : State α n m) :
    Run α (Round (State α n m) (FitResult α n)) := do
  let inner ← fitWeighted r s.weights s.x options
  let v := r.eval inner.x
  let spread ← scale options v
  let w := weights options spread v
  let moved := change w s.weights
  Run.announce (.reweighted round spread moved)
  if moved < options.tolerance then
    Run.announce (.weightsSettled options.loss (round + 1))
    return .done ⟨inner.x, v.normSquared, round + 1, true⟩
  else
    return .next ⟨inner.x, w⟩

end Robust

/-- Fit `r` from `x₀` with the loss that the options choose. With the squared loss this is a plain
fit. -/
def robustFit (r : Residuals α n m) (x₀ : Vec α n) (options : Options α) :
    Run α (FitResult α n) :=
  if options.loss = .squared then
    fit r x₀ options
  else
    iterate (Robust.step r options)
      (fun s => do
        Run.announce (.weightsUnsettled options.reweightRounds)
        return ⟨s.x, (r.eval s.x).normSquared, options.reweightRounds, false⟩)
      options.reweightRounds 0 ⟨x₀, Vec.fill 1⟩

end Numerics
