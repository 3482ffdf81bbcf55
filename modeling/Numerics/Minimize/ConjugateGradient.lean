import Numerics.Difference
import Numerics.Minimize.Result
import Numerics.Search.Brent

/-!
# Conjugate gradients

`ConjugateGradient.minimum` minimizes a function along one direction after another. The first
direction is the steepest descent; each further one is the steepest descent plus a multiple of the
direction before it, chosen as by Polak and Ribière, unless that leads uphill. A line search without
progress restarts from the steepest descent, and ends the run if its direction was that already.
-/

namespace Numerics.ConjugateGradient

variable {α : Type} [RealScalar α] {n : Nat}

/-- The state of the descent. -/
structure State (α : Type) (n : Nat) where
  /-- The point. -/
  x : Vec α n
  /-- The objective there. -/
  value : α
  /-- The gradient there. -/
  slope : Vec α n
  /-- The direction of the next line search. -/
  direction : Vec α n
  /-- Whether that is the direction of steepest descent. -/
  steepest : Bool

/-- The descent from `x₀` starts along the steepest direction. -/
def start (f : Vec α n → α) (grad : Vec α n → Vec α n) (x₀ : Vec α n) : State α n :=
  let g := grad x₀
  { x := x₀
    value := f x₀
    slope := g
    direction := -g
    steepest := true }

/-- The objective at the distance `t` along the direction of `s`. -/
def along (f : Vec α n → α) (s : State α n) (t : α) : α :=
  f (s.x + s.direction * t)

/-- Whether `step` is lost in rounding and `value`, the objective after it, is no smaller. -/
def noProgress (s : State α n) (step : Vec α n) (value : α) : Bool :=
  step.norm ≤ epsilon * (1 + (s.x + step).norm) && value ≥ s.value

/-- The share of the old direction in the new one, from the gradients `old` and `new`. -/
def share (old new : Vec α n) : α :=
  maxNum ((new.dot new - new.dot old) / old.dot old) 0

/-- The state after `step`, where the objective is `value`, with the next direction. -/
def move (grad : Vec α n → Vec α n) (s : State α n) (step : Vec α n) (value : α) : State α n :=
  let x := s.x + step
  let g := grad x
  let beta := share s.slope g
  let direction := s.direction * beta - g
  if direction.dot g ≥ 0 then
    { x, value, slope := g, direction := -g, steepest := true }
  else
    { x, value, slope := g, direction, steepest := beta == 0 }

/-- One round of the descent: a line search along the current direction. -/
def step (f : Vec α n → α) (grad : Vec α n → Vec α n) (options : Options α) (i : Nat)
    (s : State α n) : Run α (Round (State α n) (Minimum α n)) := do
  if s.slope.norm < options.tolerance then
    return .done ⟨s.x, s.value, i, true⟩
  else
    let r ← minimizeRay (along f s) options
    let step := s.direction * r.x
    if noProgress s step r.value then
      if s.steepest then
        Run.announce (.descentStalled (i + 1) s.slope.norm)
        return .done ⟨s.x, s.value, i + 1, false⟩
      else
        return .next { s with direction := -s.slope, steepest := true }
    else
      return .next (move grad s step r.value)

/-- Minimize `f`, whose gradient is `grad`, from `x₀`. -/
def minimum (f : Vec α n → α) (grad : Vec α n → Vec α n) (x₀ : Vec α n) (options : Options α) :
    Run α (Minimum α n) :=
  iterate (step f grad options)
    (fun s => return ⟨s.x, s.value, options.iterations, false⟩)
    options.iterations 0 (start f grad x₀)

end Numerics.ConjugateGradient
