import Numerics.Mat.Basic

/-!
# Runge–Kutta tableaux

A `Tableau` holds the coefficients of an explicit method: where in the step each stage looks, how
much of the earlier stages it adds to the state, and how much each stage contributes to the slope.
Nothing on or above the diagonal of the coupling is ever read. The tableaux `midpoint`, `kutta` and
`classical` have the orders two, three and four.
-/

namespace Numerics

/-- The coefficients of an explicit method of `s` stages. -/
structure Tableau (α : Type) (s : Nat) where
  /-- The times of the stages, as fractions of the step. -/
  times : Vec α s
  /-- The shares of the stages in the slope. -/
  weights : Vec α s
  /-- The shares of earlier stages in the state of each stage. -/
  coupling : Mat α s s

namespace Tableau

variable {α : Type} [RealScalar α]

/-- The explicit midpoint rule, of second order. -/
def midpoint : Tableau α 2 where
  times := ⟨#v[0, half]⟩
  weights := ⟨#v[0, 1]⟩
  coupling := ⟨⟨#v[⟨#v[0, 0]⟩, ⟨#v[half, 0]⟩]⟩⟩

/-- Kutta's rule of third order. -/
def kutta : Tableau α 3 where
  times := ⟨#v[0, half, 1]⟩
  weights := ⟨#v[ratio 1 6, ratio 2 3, ratio 1 6]⟩
  coupling := ⟨⟨#v[⟨#v[0, 0, 0]⟩, ⟨#v[half, 0, 0]⟩, ⟨#v[-1, nat 2, 0]⟩]⟩⟩

/-- The classical rule of fourth order. -/
def classical : Tableau α 4 where
  times := ⟨#v[0, half, half, 1]⟩
  weights := ⟨#v[ratio 1 6, ratio 1 3, ratio 1 3, ratio 1 6]⟩
  coupling :=
    ⟨⟨#v[⟨#v[0, 0, 0, 0]⟩, ⟨#v[half, 0, 0, 0]⟩, ⟨#v[0, half, 0, 0]⟩, ⟨#v[0, 0, 1, 0]⟩]⟩⟩

end Tableau

end Numerics
