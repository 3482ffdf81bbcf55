import Numerics.Scalar.Basic

/-!
# Machine numbers

`Float` and `Float32` are real scalars, and `Int64` is a scalar, so that matrices can have integer
entries.

A constant `ratio p q` whose two parts are exact in double precision is rounded once, so it is the
number nearest to the fraction there. In single precision it is that number rounded again.
-/

namespace Numerics

/-- Double precision. -/
instance : RealScalar Float where
  zero := 0.0
  one := 1.0
  decidableLT a b := inferInstanceAs (Decidable (a < b))
  decidableLE a b := inferInstanceAs (Decidable (a ≤ b))
  abs := Float.abs
  sqrt := Float.sqrt
  maxNum a b := if a.isNaN then b else if b.isNaN then a else if a < b then b else a
  isNaN := Float.isNaN
  isFinite := Float.isFinite
  epsilon := 1.0 / (Nat.pow 2 52).toFloat
  cbrtEpsilon := 6.0554544523933395e-6
  ratio p q := p.toFloat / q.toFloat

/-- Single precision. -/
instance : RealScalar Float32 where
  zero := 0.0
  one := 1.0
  decidableLT a b := inferInstanceAs (Decidable (a < b))
  decidableLE a b := inferInstanceAs (Decidable (a ≤ b))
  abs := Float32.abs
  sqrt := Float32.sqrt
  maxNum a b := if a.isNaN then b else if b.isNaN then a else if a < b then b else a
  isNaN := Float32.isNaN
  isFinite := Float32.isFinite
  epsilon := 1.0 / (Nat.pow 2 23).toFloat32
  cbrtEpsilon := 4.92156669e-3
  ratio p q := (p.toFloat / q.toFloat).toFloat32

/-- Machine integers, which wrap and whose division goes towards zero. -/
instance : Scalar Int64 where
  zero := 0
  one := 1

end Numerics
