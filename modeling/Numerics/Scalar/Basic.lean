/-!
# Scalars

The number systems that vectors and matrices are made of. `Scalar α` gives `α` what matrix
arithmetic needs, and `RealScalar α` adds what decompositions, searches, solvers and filters need:
an order, square roots, and the two ways in which a machine number can fail to be a real one.

Neither class has laws. Machine floats obey almost none, so every algorithm of the library says in
which order it applies the operations, and a law enters only as a hypothesis of a theorem.
-/

namespace Numerics

/-- The operations on `α` that matrix arithmetic needs. -/
class Scalar (α : Type) extends Zero α, One α, Add α, Sub α, Mul α, Div α, BEq α

/-- The operations on `α` that numerical methods need. -/
class RealScalar (α : Type) extends Scalar α, Neg α, LT α, LE α where
  /-- Whether `a < b`. -/
  decidableLT : ∀ a b : α, Decidable (a < b)
  /-- Whether `a ≤ b`. -/
  decidableLE : ∀ a b : α, Decidable (a ≤ b)
  /-- The absolute value. -/
  abs : α → α
  /-- The square root. -/
  sqrt : α → α
  /-- The larger of two numbers; where one of them is not a number, the other. -/
  maxNum : α → α → α
  /-- Whether a scalar is not a number. -/
  isNaN : α → Bool
  /-- Whether a scalar is a number, and not an infinite one. -/
  isFinite : α → Bool
  /-- The distance from one to the next larger scalar. -/
  epsilon : α
  /-- The cube root of `epsilon`, to the precision of the scalar. -/
  cbrtEpsilon : α
  /-- `ratio p q` is the fraction `p / q`, or a scalar next to it. -/
  ratio : Nat → Nat → α

namespace RealScalar

variable {α : Type} [RealScalar α]

instance (a b : α) : Decidable (a < b) := decidableLT a b

instance (a b : α) : Decidable (a ≤ b) := decidableLE a b

/-- The natural number `k` as a scalar. -/
def nat (k : Nat) : α := ratio k 1

/-- One half. -/
def half : α := ratio 1 2

end RealScalar

export RealScalar (abs sqrt maxNum isNaN isFinite epsilon cbrtEpsilon ratio nat half)

end Numerics
