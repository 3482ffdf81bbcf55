import Numerics.Curve.Monomials
import Numerics.Linear.Cholesky

/-!
# Fitting a sum of powers

The coefficients for which the squared errors of a sum of powers have the least sum solve the normal
equations, which grow by a term with each sample. A `CurveFit` holds these equations and not the
samples: `CurveFit.add` adds a sample to the equations and solves them again.
-/

namespace Numerics

open Curve

/-- A sum of `k` powers fitted to samples. -/
structure CurveFit (α : Type) (k : Nat) where
  /-- The powers. -/
  terms : Monomials k
  /-- The sum over the samples of the products of two powers. -/
  gram : Mat α k k
  /-- The sum over the samples of the products of a power and the ordinate. -/
  moments : Vec α k
  /-- The number of samples. -/
  samples : Nat
  /-- The coefficients of the powers. -/
  coeffs : Vec α k

namespace CurveFit

variable {α : Type} [RealScalar α] {k : Nat}

/-- The fit to no samples. -/
def empty (terms : Monomials k) : CurveFit α k where
  terms
  gram := 0
  moments := 0
  samples := 0
  coeffs := 0

/-- The equations of `c` and one more sample, with the coefficients left alone. -/
def accumulate (c : CurveFit α k) (x y : α) : CurveFit α k :=
  let powers := c.terms.eval x
  { c with
    gram := c.gram + Mat.outer powers powers
    moments := c.moments + powers * y
    samples := c.samples + 1 }

/-- The fit with the coefficients that solve its equations. -/
def solve (c : CurveFit α k) : Except Failure (CurveFit α k) :=
  match Linear.Cholesky.factor c.gram with
  | .ok l => .ok { c with coeffs := l.solve c.moments }
  | .error _ => .error .singular

/-- The fit to the samples with the abscissae `xs` and the ordinates `ys`, of which there has to be
one for each power. -/
def ofSamples (terms : Monomials k) (xs ys : List α) : Except Failure (CurveFit α k) := do
  let pairs ← Curve.samples xs ys
  if xs.length < k then
    .error .tooFewSamples
  else
    (pairs.foldl (fun c (x, y) => c.accumulate x y) (empty terms)).solve

/-- The fit to one more sample. -/
def add (c : CurveFit α k) (x y : α) : Except Failure (CurveFit α k) :=
  (c.accumulate x y).solve

/-- The value of the fitted sum at `x`. -/
def eval (c : CurveFit α k) (x : α) : α :=
  (c.terms.eval x).dot c.coeffs

end CurveFit

end Numerics
