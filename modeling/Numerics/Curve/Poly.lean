import Numerics.Scalar.Basic

/-!
# Polynomials

A `Poly` is the list of the coefficients of a polynomial, the constant one first. A trailing zero
counts as a coefficient, and the polynomial without coefficients is zero everywhere.
-/

namespace Numerics

/-- A polynomial with coefficients in `α`. -/
structure Poly (α : Type) where
  /-- The coefficients, in ascending powers. -/
  coeffs : List α

namespace Poly

variable {α : Type}

/-- The highest power that has a coefficient in `p`, and zero if there is none. -/
def degree (p : Poly α) : Nat :=
  p.coeffs.length - 1

variable [RealScalar α]

/-- The value of `p` at `x`, by Horner's rule. -/
def eval (p : Poly α) (x : α) : α :=
  p.coeffs.foldr (fun a acc => acc * x + a) 0

/-- The derivative of `p`. -/
def derivative (p : Poly α) : Poly α :=
  ⟨(p.coeffs.zipIdx.drop 1).map fun (a, k) => a * nat k⟩

@[simp]
theorem length_derivative (p : Poly α) :
  p.derivative.coeffs.length = p.coeffs.length - 1
  := by
  simp [derivative]

end Poly

end Numerics
