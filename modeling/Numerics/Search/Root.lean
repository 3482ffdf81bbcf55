import Numerics.Search.Brent

/-!
# Roots

`findRoot` approaches a root of a scalar function by Newton's method, with a forward difference in
the place of the slope. The search ends where the value is exactly zero, without an event, or after
a small step.
-/

namespace Numerics

namespace Root

variable {α : Type} [RealScalar α]

/-- The distance to the root that the slope of `f` at `s` suggests, with `h` as the step of the
difference. -/
def correction (f : α → α) (h : α) (s : Brent.Sample α) : α :=
  h * s.value / (f (s.x + h) - s.value)

/-- One round of the search. -/
def step (f : α → α) (options : Options α) (i : Nat) (s : Brent.Sample α) :
    Run α (Round (Brent.Sample α) (ScalarResult α)) := do
  if s.value == 0 then
    return .done ⟨s.x, s.value, i, true⟩
  else
    let d := correction f options.secantSpacing s
    let x := s.x - d
    if isFinite x then
      let y := f x
      if abs d < options.tolerance then
        Run.announce (.rootSettled (i + 1))
        return .done ⟨x, y, i + 1, true⟩
      else
        return .next ⟨x, y⟩
    else
      Run.fail .notFinite

end Root

variable {α : Type} [RealScalar α]

/-- A root of `f`, searched for from `x₀`. -/
def findRoot (f : α → α) (x₀ : α) (options : Options α) : Run α (ScalarResult α) :=
  iterate (Root.step f options)
    (fun s => do
      Run.announce (.rootUnsettled options.iterations)
      return ⟨s.x, s.value, options.iterations, false⟩)
    options.iterations 0 ⟨x₀, f x₀⟩

end Numerics
