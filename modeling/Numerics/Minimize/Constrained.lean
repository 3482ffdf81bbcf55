import Numerics.Minimize.Unconstrained
import Numerics.Scalar.Power

/-!
# Constrained minimization

`minimizeUnder` minimizes a function at the points where some functions are not positive and others
are zero. Each round minimizes the objective plus a penalty on the violation of the constraints,
from where the round before ended.

- `Exterior`: the penalty is the squared violation, with a weight that grows from round to round.
- `Lagrangian`: there is also a multiplier for each constraint, which takes up the violation that
  the round left, and the weight grows only if the violation shrank by less than a factor of four.

The gradient of the penalized objective is assembled from those of the objective and of the
constraints, so that no difference straddles the boundary of the feasible region.
-/

namespace Numerics

/-- Constraints on `n` variables: `p` functions that may not be positive, and `q` functions that
must be zero. -/
structure Constraints (α : Type) (n p q : Nat) where
  /-- The functions that may not be positive. -/
  atMostZero : Vec (Vec α n → α) p
  /-- The functions that must be zero. -/
  zero : Vec (Vec α n → α) q

variable {α : Type} [RealScalar α] {n p q : Nat}

namespace Constraints

/-- The part of the value `v` by which it violates an inequality. -/
def excess (v : α) : α :=
  maxNum v 0

/-- The largest violation of a constraint at `x`. -/
def violation (c : Constraints α n p q) (x : Vec α n) : α :=
  let worst := Fin.foldl p (fun worst i => maxNum worst (excess (c.atMostZero i x))) 0
  Fin.foldl q (fun worst j => maxNum worst (abs (c.zero j x))) worst

end Constraints

/-- The end of a constrained minimization at the feasible point `x`. -/
def endFeasible (f : Vec α n → α) (x : Vec α n) (rounds : Nat) (settled : Bool) :
    Run α (Minimum α n) := do
  Run.announce (if settled then .constrainedSettled rounds else .constrainedFeasible rounds)
  return ⟨x, f x, rounds, settled⟩

/-- The end of a constrained minimization whose budget is spent at `x`. -/
def endInfeasible (f : Vec α n → α) (x : Vec α n) (options : Options α) :
    Run α (Minimum α n) := do
  Run.announce (.constrainedUnsettled options.penaltyRounds)
  return ⟨x, f x, options.penaltyRounds, false⟩

/-! ### The exterior penalty -/

namespace Exterior

open Constraints

/-- The objective plus the squared violation, with the factor `weight`. -/
def objective (f : Vec α n → α) (c : Constraints α n p q) (weight : α) (z : Vec α n) : α :=
  let above := Fin.foldl p (fun acc i => acc + natPower (excess (c.atMostZero i z)) 2) 0
  let off := Fin.foldl q (fun acc j => acc + natPower (c.zero j z) 2) 0
  f z + weight * (above + off)

/-- The gradient of the penalized objective. -/
def slope (f : Vec α n → α) (c : Constraints α n p q) (weight : α) (options : Options α)
    (z : Vec α n) : Vec α n :=
  let g := Fin.foldl p (fun g i =>
    let v := c.atMostZero i z
    if v > 0 then
      g + gradient (c.atMostZero i) z options * (nat 2 * weight * v)
    else g) (gradient f z options)
  Fin.foldl q (fun g j =>
    g + gradient (c.zero j) z options * (nat 2 * weight * c.zero j z)) g

/-- The state between rounds. -/
structure State (α : Type) (n : Nat) where
  x : Vec α n
  weight : α

/-- One round: minimize the penalized objective, then raise the weight. -/
def step (f : Vec α n → α) (c : Constraints α n p q) (options : Options α) (round : Nat)
    (s : State α n) : Run α (Round (State α n) (Minimum α n)) := do
  let inner ← minimizeWith (objective f c s.weight) (slope f c s.weight options) s.x options
  let violation := c.violation inner.x
  Run.announce (.penaltyRound .exterior round s.weight violation inner.converged)
  if violation < options.tolerance then
    return .done (← endFeasible f inner.x (round + 1) inner.converged)
  else
    return .next ⟨inner.x, s.weight * options.weightGrowth⟩

/-- Minimize `f` under the constraints `c` with the exterior penalty. -/
def minimum (f : Vec α n → α) (c : Constraints α n p q) (x₀ : Vec α n) (options : Options α) :
    Run α (Minimum α n) :=
  iterate (step f c options) (fun s => endInfeasible f s.x options)
    options.penaltyRounds 0 ⟨x₀, options.exteriorWeight⟩

end Exterior

/-! ### The augmented Lagrangian -/

namespace Lagrangian

open Constraints

/-- The state between rounds. -/
structure State (α : Type) (n p q : Nat) where
  x : Vec α n
  /-- The weight of the squared violation. -/
  weight : α
  /-- The multipliers of the equations. -/
  forZero : Vec α q
  /-- The multipliers of the inequalities. -/
  forAtMostZero : Vec α p
  /-- The violation that the last round left. -/
  violation : Option α

/-- The multiplier of an inequality, shifted by the weighted value `v` of its function. -/
def shifted (multiplier weight v : α) : α :=
  excess (multiplier + weight * v)

/-- The objective plus the multiplied and the weighted squared violation. -/
def objective (f : Vec α n → α) (c : Constraints α n p q) (s : State α n p q) (z : Vec α n) : α :=
  let v := Fin.foldl q (fun v j =>
    let h := c.zero j z
    v + s.forZero j * h + half * s.weight * h * h) (f z)
  Fin.foldl p (fun v i =>
    let m := s.forAtMostZero i
    let t := shifted m s.weight (c.atMostZero i z)
    v + (t * t - m * m) / (s.weight + s.weight)) v

/-- The gradient of the augmented Lagrangian. -/
def slope (f : Vec α n → α) (c : Constraints α n p q) (options : Options α) (s : State α n p q)
    (z : Vec α n) : Vec α n :=
  let g := Fin.foldl q (fun g j =>
    g + gradient (c.zero j) z options * (s.forZero j + s.weight * c.zero j z))
    (gradient f z options)
  Fin.foldl p (fun g i =>
    let t := shifted (s.forAtMostZero i) s.weight (c.atMostZero i z)
    if t > 0 then g + gradient (c.atMostZero i) z options * t else g) g

/-- The state at `x`, with multipliers that take up the violation there. -/
def update (c : Constraints α n p q) (s : State α n p q) (x : Vec α n) : State α n p q :=
  { s with
    x
    forZero := Vec.ofFn fun j => s.forZero j + s.weight * c.zero j x
    forAtMostZero := Vec.ofFn fun i => shifted (s.forAtMostZero i) s.weight (c.atMostZero i x) }

/-- The next weight, which grows unless `violation` is the first or has shrunk by a factor of four.
-/
def nextWeight (options : Options α) (s : State α n p q) (violation : α) : α :=
  match s.violation with
  | none => s.weight
  | some before =>
    if violation > ratio 1 4 * before then s.weight * options.weightGrowth else s.weight

/-- One round: minimize the augmented Lagrangian, then update the multipliers and the weight. -/
def step (f : Vec α n → α) (c : Constraints α n p q) (options : Options α) (round : Nat)
    (s : State α n p q) : Run α (Round (State α n p q) (Minimum α n)) := do
  let inner ← minimizeWith (objective f c s) (slope f c options s) s.x options
  let next := update c s inner.x
  let violation := c.violation inner.x
  Run.announce (.penaltyRound .lagrangian round s.weight violation inner.converged)
  if violation < options.tolerance then
    return .done (← endFeasible f inner.x (round + 1) inner.converged)
  else
    return .next
      { next with weight := nextWeight options s violation, violation := some violation }

/-- Minimize `f` under the constraints `c` with the augmented Lagrangian. -/
def minimum (f : Vec α n → α) (c : Constraints α n p q) (x₀ : Vec α n) (options : Options α) :
    Run α (Minimum α n) :=
  iterate (step f c options) (fun s => endInfeasible f s.x options)
    options.penaltyRounds 0
    { x := x₀
      weight := options.lagrangianWeight
      forZero := 0
      forAtMostZero := 0
      violation := none }

end Lagrangian

/-- Minimize `f` under the constraints `c`; without any this is plain minimization. -/
def minimizeUnder (f : Vec α n → α) (c : Constraints α n p q) (x₀ : Vec α n)
    (options : Options α) : Run α (Minimum α n) :=
  if p = 0 ∧ q = 0 then
    minimize f x₀ options
  else
    match options.penalty with
    | .exterior => Exterior.minimum f c x₀ options
    | .lagrangian => Lagrangian.minimum f c x₀ options

end Numerics
