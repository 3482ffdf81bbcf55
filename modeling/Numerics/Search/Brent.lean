import Numerics.Search.Bracket

/-!
# Minimizing on an interval

`Brent.minimum` closes in on a minimum of a scalar function on an interval by Brent's method. The
bracket shrinks by golden sections, which always succeed; a parabola through the three best points
takes over where its minimum lies well inside the bracket and its steps keep shrinking. No trial
point is closer to the best point than the `Brent.resolution` there.

`minimizeBetween` is that search with its event, `minimizeNear` finds the interval first, and
`minimizeRay` is the line search of the solvers.
-/

namespace Numerics

/-- What a search for a point in `α` ended with. -/
structure ScalarResult (α : Type) where
  /-- The point found. -/
  x : α
  /-- The value of the function there. -/
  value : α
  /-- The number of steps. -/
  iterations : Nat
  /-- Whether the search ended before its budget was spent. -/
  converged : Bool

namespace Brent

/-- A point and the value of the function there. -/
structure Sample (α : Type) where
  x : α
  value : α

/-- The state of the search. -/
structure State (α : Type) where
  /-- The lower end of the bracket. -/
  a : α
  /-- The upper end of the bracket. -/
  b : α
  /-- The best point. -/
  best : Sample α
  /-- The second best point. -/
  second : Sample α
  /-- The second best point before that. -/
  third : Sample α
  /-- The last step. -/
  last : α
  /-- The step before the last, or the width that a golden section divided. -/
  previous : α

variable {α : Type} [RealScalar α]

/-- The smaller part of a golden section. -/
def golden : α :=
  ratio 3819660112501051 10000000000000000

/-- The search on `i` starts with one point, a golden section above the lower end. -/
def start (f : α → α) (i : Interval α) : State α :=
  let x := i.lower + golden * (i.upper - i.lower)
  let sample := ⟨x, f x⟩
  { a := i.lower
    b := i.upper
    best := sample
    second := sample
    third := sample
    last := 0
    previous := 0 }

/-- The middle of the bracket. -/
def middle (s : State α) : α :=
  half * (s.a + s.b)

/-- The least distance between the best point and a trial point. -/
def resolution (options : Options α) (s : State α) : α :=
  sqrt epsilon * abs s.best.x + options.tolerance / nat 3

/-- Whether the bracket around the best point is as narrow as the resolution allows. -/
def settled (options : Options α) (s : State α) : Bool :=
  abs (s.best.x - middle s) ≤ nat 2 * resolution options s - half * (s.b - s.a)

/-- The step `num / den` from the best point. -/
structure Fraction (α : Type) where
  num : α
  den : α

/-- The step to the minimum of the parabola through the three best points. -/
def parabola (s : State α) : Fraction α :=
  let x := s.best.x
  let r := (x - s.second.x) * (s.best.value - s.third.value)
  let q := (x - s.third.x) * (s.best.value - s.second.value)
  let p := (x - s.third.x) * q - (x - s.second.x) * r
  let q := nat 2 * (q - r)
  ⟨if q > 0 then -p else p, abs q⟩

/-- Whether `step` is less than half of the step before the last, and stays inside the bracket. -/
def acceptable (s : State α) (step : Fraction α) : Bool :=
  abs step.num < abs (half * step.den * s.previous)
    && step.num > step.den * (s.a - s.best.x)
    && step.num < step.den * (s.b - s.best.x)

/-- The last two steps. -/
structure Steps (α : Type) where
  last : α
  previous : α

/-- The parabolic step `step`, or where that would come near an end of the bracket, the least step
towards the middle. -/
def parabolicSteps (tol : α) (s : State α) (step : Fraction α) : Steps α :=
  let d := step.num / step.den
  let u := s.best.x + d
  { last :=
      if u - s.a < nat 2 * tol || s.b - u < nat 2 * tol then
        if middle s ≥ s.best.x then tol else -tol
      else d
    previous := s.last }

/-- The step to a golden section of the larger part of the bracket. -/
def goldenSteps (s : State α) : Steps α :=
  let width := if s.best.x ≥ middle s then s.a - s.best.x else s.b - s.best.x
  { last := golden * width
    previous := width }

/-- The next step: parabolic where the parabola is to be trusted, and golden elsewhere. -/
def nextSteps (tol : α) (s : State α) : Steps α :=
  let step := parabola s
  if abs s.previous > tol && acceptable s step then
    parabolicSteps tol s step
  else
    goldenSteps s

/-- The next trial point: a step `d` from the best point, but no shorter than `tol`. -/
def trial (tol : α) (s : State α) (d : α) : α :=
  if abs d ≥ tol then s.best.x + d
  else if d ≥ 0 then s.best.x + tol
  else s.best.x - tol

/-- Rank the new sample `u` among the three best, and shrink the bracket to the side of the better
one. -/
def update (s : State α) (u : Sample α) : State α :=
  if u.value ≤ s.best.value then
    { s with
      a := if u.x ≥ s.best.x then s.best.x else s.a
      b := if u.x ≥ s.best.x then s.b else s.best.x
      best := u
      second := s.best
      third := s.second }
  else
    let s :=
      { s with
        a := if u.x < s.best.x then u.x else s.a
        b := if u.x < s.best.x then s.b else u.x }
    if u.value ≤ s.second.value || s.second.x == s.best.x then
      { s with second := u, third := s.second }
    else if u.value ≤ s.third.value || s.third.x == s.best.x || s.third.x == s.second.x then
      { s with third := u }
    else s

/-- The state after one more trial point. -/
def advance (f : α → α) (options : Options α) (s : State α) : State α :=
  let tol := resolution options s
  let steps := nextSteps tol s
  let u := trial tol s steps.last
  update { s with last := steps.last, previous := steps.previous } ⟨u, f u⟩

/-- One round of the search, which ends it where the bracket is narrow. -/
def step (f : α → α) (options : Options α) (i : Nat) (s : State α) :
    Round (State α) (ScalarResult α) :=
  if settled options s then
    .done ⟨s.best.x, s.best.value, i, true⟩
  else
    .next (advance f options s)

/-- The minimum of `f` on the interval `i`. -/
def minimum (f : α → α) (i : Interval α) (options : Options α) : ScalarResult α :=
  Id.run <| iterate (m := Id) (fun k s => step f options k s)
    (fun s => ⟨s.best.x, s.best.value, options.iterations, false⟩)
    options.iterations 0 (start f i)

end Brent

variable {α : Type} [RealScalar α]

/-- Minimize `f` between `a` and `b`, whichever of them is the lower end. -/
def minimizeBetween (f : α → α) (a b : α) (options : Options α) : Run α (ScalarResult α) := do
  let r := Brent.minimum f (.between a b) options
  Run.announce
    (if r.converged then .intervalSettled r.iterations
     else .intervalUnsettled options.iterations)
  return r

/-- Bracket a minimum of `f`, then minimize inside the bracket. -/
def minimizeNear (f : α → α) (x₀ stride : α) (options : Options α) : Run α (ScalarResult α) := do
  let i ← bracket f x₀ stride
  minimizeBetween f i.lower i.upper options

/-- Minimize `f` along the ray from zero, with a first step of one. -/
def minimizeRay (f : α → α) (options : Options α) : Run α (ScalarResult α) :=
  minimizeNear f 0 1 options

end Numerics
