import Numerics.Curve.Samples
import Numerics.Scalar.Power
import Numerics.Vec

/-!
# Monomials

The terms of a fit are powers with increasing exponents, `Monomials k`. An exponent is a word of 32
bits, and `Monomials.eval` reads it as a signed number: the upper half of the words stands for
negative exponents.
-/

namespace Numerics

open Curve

/-- The exponents of `k` powers of one variable. -/
structure Monomials (k : Nat) where
  exponents : Vec UInt32 k

namespace Monomials

variable {k : Nat}

/-- Whether every exponent in a list is less than the next. -/
def increasing : List UInt32 → Bool
  | a :: b :: rest => a < b && increasing (b :: rest)
  | _ => true

/-- The powers with the given exponents, of which there has to be one, and which have to increase.
-/
def ofExponents (exponents : Vec UInt32 k) : Except Failure (Monomials k) :=
  if k = 0 || !increasing exponents.toList then .error .invalidExponents else .ok ⟨exponents⟩

/-- The `k` powers of lowest degree. -/
def dense (k : Nat) : Monomials k :=
  ⟨Vec.ofFn fun i => i.val.toUInt32⟩

/-- A constant and a linear term. -/
def linear : Monomials 2 :=
  ⟨⟨#v[0, 1]⟩⟩

/-- A constant, a linear and a quadratic term. -/
def quadratic : Monomials 3 :=
  ⟨⟨#v[0, 1, 2]⟩⟩

/-- The values of the powers at `x`. -/
def eval {α : Type} [Scalar α] (b : Monomials k) (x : α) : Vec α k :=
  Vec.ofFn fun i => intPower x (b.exponents i).toInt32.toInt

end Monomials

end Numerics
