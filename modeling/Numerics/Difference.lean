import Numerics.Mat.Basic
import Numerics.Options

/-!
# Derivatives by differences

A central difference quotient approaches the derivative with an error that is a series in the
square of its step. `extrapolate` takes the quotient at one step, or combines the quotients at `2h`,
`h` and `h/2` so that the first two terms of that series cancel.

The `derivative` of a function of one variable, and the `gradient` and the `jacobian` of functions
of several variables, are extrapolated along each axis on its own. `scaledJacobian` takes one
quotient along each axis, with a step that grows with the coordinate.
-/

namespace Numerics

variable {α : Type} [RealScalar α] {m n : Nat}

/-- The derivative made of `quotient`, which gives the difference quotient for each step, at steps
around `h`. -/
def extrapolate {β : Type} [Add β] [Sub β] [HMul β α β] (quotient : α → β) (h : α) :
    Differencing → β
  | .central => quotient h
  | .ridders =>
    let third : α := 1 / nat 3
    let coarse := quotient (h * nat 2)
    let middle := quotient h
    let fine := quotient (h / nat 2)
    let first := (middle * (nat 4 : α) - coarse) * third
    let second := (fine * (nat 4 : α) - middle) * third
    (second * (nat 16 : α) - first) * (1 / nat 15 : α)

/-- The central difference quotient of `f` at `x` with the step `h`. -/
def centralQuotient (f : α → α) (x h : α) : α :=
  (f (x + h) - f (x - h)) / (h + h)

/-- The derivative of `f` at `x`, with a step of a thousandth. -/
def derivative (f : α → α) (x : α) (options : Options α) : α :=
  extrapolate (centralQuotient f x) (ratio 1 1000) options.differencing

namespace Vec

/-- The point a step `h` ahead of `x` along the axis `j`. -/
def ahead (x : Vec α n) (j : Fin n) (h : α) : Vec α n :=
  x.set j (x j + h)

/-- The point a step `h` behind `x` along the axis `j`. -/
def behind (x : Vec α n) (j : Fin n) (h : α) : Vec α n :=
  x.set j (x j - h)

end Vec

/-- The central difference quotient of `f` at `x` along the axis `j`. -/
def partialQuotient (f : Vec α n → α) (x : Vec α n) (j : Fin n) (h : α) : α :=
  (f (x.ahead j h) - f (x.behind j h)) / (h + h)

/-- The central difference quotient of the vector function `f` at `x` along the axis `j`. -/
def columnQuotient (f : Vec α n → Vec α m) (x : Vec α n) (j : Fin n) (h : α) : Vec α m :=
  (f (x.ahead j h) - f (x.behind j h)) * (1 / (h + h))

/-- The gradient of `f` at `x`. -/
def gradient (f : Vec α n → α) (x : Vec α n) (options : Options α) : Vec α n :=
  Vec.ofFn fun j => extrapolate (partialQuotient f x j) options.spacing options.differencing

/-- The Jacobian of `f` at `x`, with a column for each axis. -/
def jacobian (f : Vec α n → Vec α m) (x : Vec α n) (options : Options α) : Mat α m n :=
  Mat.ofCols (Vec.ofFn fun j =>
    extrapolate (columnQuotient f x j) options.spacing options.differencing)

/-- The Jacobian of `f` at `x` with a step of its own along each axis: the cube root of the
precision, times the size of the coordinate where that exceeds one. -/
def scaledJacobian (f : Vec α n → Vec α m) (x : Vec α n) : Mat α m n :=
  Mat.ofCols (Vec.ofFn fun j =>
    let h := cbrtEpsilon * maxNum (abs (x j)) 1
    (f (x.ahead j h) - f (x.behind j h)) / (nat 2 * h))

end Numerics
