import Mathlib.LinearAlgebra.Matrix.NonsingularInverse
import Numerics.Proofs.Mat.Matrix

/-!
# Inverses from solutions

If `f b` solves the system with the square matrix `a` and the right side `b`, for every `b`, then it
is the only solution, and the matrix whose columns are the solutions for the unit vectors is inverse
to `a` on both sides.

As a function of two indices, `a⁻¹` is the inverse of a matrix whose determinant is a unit.
-/

namespace Numerics.Mat

open Matrix

variable {α : Type} [CommRing α] {n : Nat} {a : Mat α n n} {f : Vec α n → Vec α n}

/-- The matrix whose columns are the solutions for the unit vectors is a right inverse. -/
theorem mul_ofCols_axis (h : ∀ b, a.mulVec (f b) = b) :
  a * ofCols (Vec.ofFn fun c => f (Vec.axis c)) = identity
  := by
  ext i j
  have hj := congrArg (fun v : Vec α n => v i) (h (Vec.axis j))
  rw [← toMatrix_apply, toMatrix_mul, toMatrix_ofCols_ofFn, get_identity]
  rw [Vec.get_axis] at hj
  rw [← hj, ← Vec.toFun_apply, toFun_mulVec]
  rfl

/-- A right inverse is a left inverse. -/
theorem mul_eq_identity_comm {a b : Mat α n n} :
  a * b = identity ↔ b * a = identity
  := by
  rw [← toMatrix_inj, ← toMatrix_inj, toMatrix_mul, toMatrix_mul, toMatrix_identity]
  apply mul_eq_one_comm

/-- The solution is unique. -/
theorem mulVec_eq_iff (h : ∀ b, a.mulVec (f b) = b) (b x : Vec α n) :
  a.mulVec x = b ↔ x = f b
  := by
  constructor
  · intro hx
    have hleft := mul_eq_identity_comm.mp (mul_ofCols_axis h)
    have hsolution : a.mulVec x = a.mulVec (f b) := by
      rw [hx, h]
    rw [← toMatrix_inj, toMatrix_mul, toMatrix_identity] at hleft
    rw [← Vec.toFun_inj, toFun_mulVec, toFun_mulVec] at hsolution
    rw [← Vec.toFun_inj, ← one_mulVec x.toFun, ← hleft, ← mulVec_mulVec, hsolution, mulVec_mulVec,
      hleft, one_mulVec]
  · rintro rfl
    apply h

/-! ### The inverse -/

noncomputable instance : Inv (Mat α n n) :=
  ⟨fun a => ofFn fun i j => a.toMatrix⁻¹ i j⟩

@[simp]
theorem toMatrix_inv (a : Mat α n n) :
  a⁻¹.toMatrix = a.toMatrix⁻¹
  := by
  ext i j
  apply get_ofFn

theorem mul_inv_cancel (h : IsUnit a.toMatrix.det) :
  a * a⁻¹ = identity
  := by
  rw [← toMatrix_inj, toMatrix_mul, toMatrix_inv, toMatrix_identity, mul_nonsing_inv _ h]

theorem inv_mul_cancel (h : IsUnit a.toMatrix.det) :
  a⁻¹ * a = identity
  := mul_eq_identity_comm.mp (mul_inv_cancel h)

theorem transpose_inv (a : Mat α n n) :
  a⁻¹.transpose = a.transpose⁻¹
  := by
  rw [← toMatrix_inj, toMatrix_transpose, toMatrix_inv, toMatrix_inv, toMatrix_transpose,
    transpose_nonsing_inv]

end Numerics.Mat
