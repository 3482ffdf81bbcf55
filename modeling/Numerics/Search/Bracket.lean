import Numerics.Iteration
import Numerics.Run

/-!
# Bracketing a minimum

`bracket f x₀ stride` is an interval around a minimum of a scalar function. It is found by a walk
downhill, with a step that doubles, until the lowest of three points in a row is the middle one. The
walk may turn round: where the function rises ahead, the next window lies behind the starting point.

Two equal values end the walk too, since a minimum lies between their points.
-/

namespace Numerics

/-- A closed interval of scalars. -/
structure Interval (α : Type) where
  lower : α
  upper : α

variable {α : Type} [RealScalar α]

/-- The interval between `a` and `b`, whichever of them is the lower end. -/
def Interval.between (a b : α) : Interval α :=
  if a ≤ b then ⟨a, b⟩ else ⟨b, a⟩

namespace Bracket

/-- Where the walk stands: at `point`, about to take a step of length `stride`. -/
structure Window (α : Type) where
  point : α
  stride : α

/-- The number of windows that are tried. -/
def budget : Nat := 64

/-- The value `v` of the function, which has to be a number. -/
def number (v : α) : Except SolverError α :=
  if isNaN v then .error .notFinite else .ok v

/-- One round of the walk: either the window `w` brackets a minimum of `f`, or the walk goes on with
a doubled step. -/
def step (f : α → α) (w : Window α) : Except SolverError (Round (Window α) (Interval α)) := do
  let x := w.point
  let d := w.stride
  let here ← number (f x)
  let near ← number (f (x + d))
  if here > near then
    let far ← number (f (x + nat 3 * d))
    if near < far then
      return .done (.between x (x + nat 3 * d))
    else if near == far then
      return .done (.between (x + d) (x + nat 3 * d))
    else
      return .next ⟨x + d, d + d⟩
  else if here < near then
    let back ← number (f (x - d))
    if back > here then
      return .done (.between (x - d) (x + d))
    else if back == here then
      return .done (.between (x - d) x)
    else
      return .next ⟨x - nat 3 * d, d + d⟩
  else
    return .done (.between x (x + d))

end Bracket

/-- An interval around a minimum of `f`, found from `x₀` with a first step of length `stride`. -/
def bracket (f : α → α) (x₀ stride : α) : Except SolverError (Interval α) :=
  if stride == 0 || !isFinite stride then
    .error .invalidArgument
  else
    iterate (fun _ => Bracket.step f) (fun _ => .error .noBracket) Bracket.budget 0 ⟨x₀, stride⟩

end Numerics
