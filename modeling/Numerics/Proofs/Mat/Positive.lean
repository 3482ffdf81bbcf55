import Mathlib.LinearAlgebra.Matrix.DotProduct
import Mathlib.Tactic.Ring
import Numerics.Proofs.Mat.Inverse
import Numerics.Proofs.Scalar.Exact

/-!
# Positive matrices

`a.form v` is the value at `v` of the quadratic form of the square matrix `a`. A symmetric matrix is
positive semidefinite, `PosSemidef`, if no value of its form is negative, and positive definite,
`PosDef`, if the form is positive everywhere but at zero.

Sums and congruences `k * p * k.transpose` keep these properties, as a covariance needs when the
state that it belongs to is moved or measured.
-/

namespace Numerics

open Matrix

variable {α : Type} [ExactScalar α] {m n : Nat}

/-! ### Squares -/

namespace Vec

theorem dot_self_nonneg (v : Vec α n) :
  0 ≤ v.dot v
  := by
  rw [dot_eq]
  apply Finset.sum_nonneg
  intro i _
  apply mul_self_nonneg

theorem dot_self_pos {v : Vec α n} (h : v ≠ 0) :
  0 < v.dot v
  := by
  apply lt_of_le_of_ne v.dot_self_nonneg
  intro hzero
  rw [dot_eq, eq_comm, dotProduct_self_eq_zero, ← toFun_zero, toFun_inj] at hzero
  exact h hzero

theorem dot_neg (v w : Vec α n) :
  v.dot (-w) = -v.dot w
  := by
  have hopposite : -w = w * (-1 : α) := by
    ext i
    simp
  rw [hopposite, dot_mul, mul_neg_one]

theorem dot_self_add (v w : Vec α n) :
  (v + w).dot (v + w) = v.dot v + 2 * w.dot v + w.dot w
  := by
  rw [dot_add, dot_comm _ v, dot_comm _ w, dot_add, dot_add, dot_comm v w]
  ring

theorem norm_nonneg {α : Type} [ExactReal α] (v : Vec α n) :
  0 ≤ v.norm
  := sqrt_nonneg _ v.dot_self_nonneg

theorem norm_mul_norm {α : Type} [ExactReal α] (v : Vec α n) :
  v.norm * v.norm = v.dot v
  := sqrt_mul_sqrt _ v.dot_self_nonneg

theorem norm_mul {α : Type} [ExactReal α] (v : Vec α n) (s : α) :
  (v * s).norm = v.norm * |s|
  := by
  rw [← mul_self_inj (norm_nonneg _) (mul_nonneg v.norm_nonneg (abs_nonneg s)), norm_mul_norm,
    dot_mul, dot_comm, dot_mul, mul_mul_mul_comm, norm_mul_norm, abs_mul_abs_self, mul_assoc]

theorem norm_neg {α : Type} [ExactReal α] (v : Vec α n) :
  (-v).norm = v.norm
  := by
  rw [norm, norm, normSquared, normSquared, dot_neg, dot_comm, dot_neg, neg_neg]

theorem norm_sub_comm {α : Type} [ExactReal α] (v w : Vec α n) :
  (v - w).norm = (w - v).norm
  := by
  have hopposite : v - w = -(w - v) := by
    ext i
    simp
  rw [hopposite, norm_neg]

/-- The length of a vector of one entry. -/
theorem norm_single {α : Type} [ExactReal α] (v : Vec α 1) :
  v.norm = |v 0|
  := by
  rw [← mul_self_inj v.norm_nonneg (abs_nonneg _), norm_mul_norm, abs_mul_abs_self, dot, foldl_add,
    zero_add, Fin.sum_univ_one]

end Vec

namespace Mat

/-! ### Quadratic forms -/

/-- The value at `v` of the quadratic form of `a`. -/
def form (a : Mat α n n) (v : Vec α n) : α :=
  v.dot (a.mulVec v)

theorem form_eq (a : Mat α n n) (v : Vec α n) :
  a.form v = v.toFun ⬝ᵥ a.toMatrix *ᵥ v.toFun
  := by
  rw [form, Vec.dot_eq, toFun_mulVec]

@[simp]
theorem form_zero (a : Mat α n n) :
  a.form 0 = 0
  := by
  rw [form_eq, Vec.toFun_zero, zero_dotProduct]

theorem form_axis (a : Mat α n n) (i : Fin n) :
  a.form (Vec.axis i) = a i i
  := by
  rw [form, Vec.dot_comm, Vec.dot_axis, get_mulVec, foldl_add, zero_add]
  simp

theorem form_add (a b : Mat α n n) (v : Vec α n) :
  (a + b).form v = a.form v + b.form v
  := by
  simp only [form_eq, toMatrix_add, add_mulVec, dotProduct_add]

theorem form_diagonal (d v : Vec α n) :
  (diagonal d).form v = ∑ i, d i * v i ^ 2
  := by
  have hdiagonal : (diagonal d).toMatrix = Matrix.diagonal d.toFun := by
    ext i j
    rw [toMatrix_apply, get_diagonal, Matrix.diagonal_apply, Vec.toFun_apply]
  rw [form_eq, hdiagonal, dotProduct]
  apply Finset.sum_congr rfl
  intro i _
  rw [mulVec_diagonal, Vec.toFun_apply, Vec.toFun_apply]
  ring

theorem form_scaledIdentity (s : α) (v : Vec α n) :
  (scaledIdentity s : Mat α n n).form v = s * v.dot v
  := by
  rw [scaledIdentity, form_diagonal, Vec.dot_eq, dotProduct, Finset.mul_sum]
  apply Finset.sum_congr rfl
  intro i _
  rw [Vec.get_fill, Vec.toFun_apply, pow_two]

theorem dot_mulVec_comm {a : Mat α n n} (ha : a.transpose = a) (v w : Vec α n) :
  v.dot (a.mulVec w) = w.dot (a.mulVec v)
  := by
  have hswap := dotProduct_transpose_mulVec a.toMatrix v.toFun w.toFun
  rw [← toMatrix_transpose, ha] at hswap
  rw [Vec.dot_eq, Vec.dot_eq, toFun_mulVec, toFun_mulVec, hswap]

/-- The form of a symmetric matrix at a sum. -/
theorem form_vec_add {a : Mat α n n} (ha : a.transpose = a) (v w : Vec α n) :
  a.form (v + w) = a.form v + 2 * w.dot (a.mulVec v) + a.form w
  := by
  have hswap := dot_mulVec_comm ha v w
  simp only [Vec.dot_eq, toFun_mulVec] at hswap
  simp only [form_eq, Vec.dot_eq, toFun_mulVec, Vec.toFun_add, mulVec_add, dotProduct_add,
    add_dotProduct]
  rw [hswap]
  ring

/-- The form of a symmetric matrix at a difference. -/
theorem form_vec_sub {a : Mat α n n} (ha : a.transpose = a) (v w : Vec α n) :
  a.form (v - w) = a.form v - 2 * w.dot (a.mulVec v) + a.form w
  := by
  have hswap := dot_mulVec_comm ha v w
  simp only [Vec.dot_eq, toFun_mulVec] at hswap
  simp only [form_eq, Vec.dot_eq, toFun_mulVec, Vec.toFun_sub, mulVec_sub, dotProduct_sub,
    sub_dotProduct]
  rw [hswap]
  ring

/-- The form of a congruent matrix is the form at the transformed vector. -/
theorem form_congruence (k : Mat α m n) (p : Mat α n n) (v : Vec α m) :
  (k * p * k.transpose).form v = p.form (k.transpose.mulVec v)
  := by
  rw [form_eq, form_eq, toFun_mulVec, toMatrix_mul, toMatrix_mul, toMatrix_transpose,
    ← mulVec_mulVec, ← mulVec_mulVec, dotProduct_mulVec, ← mulVec_transpose]

/-! ### Symmetric matrices -/

theorem transpose_congruence (k : Mat α m n) {p : Mat α n n} (hp : p.transpose = p) :
  (k * p * k.transpose).transpose = k * p * k.transpose
  := by
  rw [transpose_mul, transpose_mul, transpose_transpose, hp, mul_assoc]

theorem transpose_diagonal (d : Vec α n) :
  (diagonal d).transpose = diagonal d
  := by
  ext i j
  rw [get_transpose, get_diagonal, get_diagonal]
  by_cases hij : i = j
  · rw [hij]
  · rw [if_neg hij, if_neg (Ne.symm hij)]

theorem transpose_scaledIdentity (s : α) :
  (scaledIdentity s : Mat α n n).transpose = scaledIdentity s
  := transpose_diagonal _

theorem scaledIdentity_one :
  (scaledIdentity 1 : Mat α n n) = identity
  := by
  ext i j
  rw [get_scaledIdentity, get_identity]

/-- The symmetric part of a symmetric matrix is the matrix itself. -/
theorem symmetrized_eq {a : Mat α n n} (h : a.transpose = a) :
  a.symmetrized = a
  := by
  have htwo : (1 + 1 : α) ≠ 0 := by
    rw [one_add_one_eq_two]
    apply two_ne_zero
  ext i j
  have hij : a j i = a i j := by
    rw [← get_transpose, h]
  rw [symmetrized, get_ofFn, hij, ← mul_two, ← one_add_one_eq_two, mul_div_cancel_right₀ _ htwo,
    ite_self, ite_self]

/-! ### Positive semidefinite matrices -/

/-- The matrix `a` is symmetric, and no value of its form is negative. -/
structure PosSemidef (a : Mat α n n) : Prop where
  symmetric : a.transpose = a
  form_nonneg : ∀ v, 0 ≤ a.form v

theorem PosSemidef.add {a b : Mat α n n} (ha : a.PosSemidef) (hb : b.PosSemidef) :
  (a + b).PosSemidef
  := by
  constructor
  · rw [transpose_add, ha.symmetric, hb.symmetric]
  · intro v
    rw [form_add]
    apply add_nonneg (ha.form_nonneg v) (hb.form_nonneg v)

theorem PosSemidef.congruence {p : Mat α n n} (hp : p.PosSemidef) (k : Mat α m n) :
  (k * p * k.transpose).PosSemidef
  := by
  constructor
  · apply transpose_congruence k hp.symmetric
  · intro v
    rw [form_congruence]
    apply hp.form_nonneg

theorem posSemidef_diagonal {d : Vec α n} (h : ∀ i, 0 ≤ d i) :
  (diagonal d).PosSemidef
  := by
  constructor
  · apply transpose_diagonal
  · intro v
    rw [form_diagonal]
    apply Finset.sum_nonneg
    intro i _
    apply mul_nonneg (h i) (sq_nonneg _)

theorem posSemidef_scaledIdentity {s : α} (h : 0 ≤ s) :
  (scaledIdentity s : Mat α n n).PosSemidef
  := by
  apply posSemidef_diagonal
  intro i
  rw [Vec.get_fill]
  exact h

/-! ### Positive definite matrices -/

/-- The matrix `a` is symmetric, and its form is positive everywhere but at zero. -/
structure PosDef (a : Mat α n n) : Prop where
  symmetric : a.transpose = a
  form_pos : ∀ v, v ≠ 0 → 0 < a.form v

theorem PosDef.posSemidef {a : Mat α n n} (h : a.PosDef) :
  a.PosSemidef
  := by
  constructor
  · exact h.symmetric
  · intro v
    by_cases hv : v = 0
    · rw [hv, form_zero]
    · apply (h.form_pos v hv).le

theorem PosSemidef.add_posDef {a b : Mat α n n} (ha : a.PosSemidef) (hb : b.PosDef) :
  (a + b).PosDef
  := by
  constructor
  · rw [transpose_add, ha.symmetric, hb.symmetric]
  · intro v hv
    rw [form_add]
    apply add_pos_of_nonneg_of_pos (ha.form_nonneg v) (hb.form_pos v hv)

theorem posDef_diagonal {d : Vec α n} (h : ∀ i, 0 < d i) :
  (diagonal d).PosDef
  := by
  constructor
  · apply transpose_diagonal
  · intro v hv
    obtain ⟨i, hi⟩ := Vec.exists_ne_zero hv
    rw [form_diagonal]
    apply Finset.sum_pos'
    · intro j _
      apply mul_nonneg (h j).le (sq_nonneg _)
    · use i, Finset.mem_univ i
      apply mul_pos (h i) (sq_pos_of_ne_zero hi)

theorem posDef_scaledIdentity {s : α} (h : 0 < s) :
  (scaledIdentity s : Mat α n n).PosDef
  := by
  apply posDef_diagonal
  intro i
  rw [Vec.get_fill]
  exact h

theorem posDef_identity :
  (identity : Mat α n n).PosDef
  := by
  rw [← scaledIdentity_one]
  apply posDef_scaledIdentity zero_lt_one

/-- A congruence by a matrix whose transpose vanishes at zero only keeps a matrix definite. -/
theorem PosDef.congruence {p : Mat α n n} (hp : p.PosDef) {k : Mat α m n}
    (hk : ∀ v, k.transpose.mulVec v = 0 → v = 0) :
  (k * p * k.transpose).PosDef
  := by
  constructor
  · apply transpose_congruence k hp.symmetric
  · intro v hv
    rw [form_congruence]
    apply hp.form_pos
    intro hzero
    exact hv (hk v hzero)

/-- A positive definite matrix has an inverse. -/
theorem PosDef.isUnit_det {a : Mat α n n} (h : a.PosDef) :
  IsUnit a.toMatrix.det
  := by
  rw [← Matrix.isUnit_iff_isUnit_det, ← mulVec_injective_iff_isUnit]
  intro v w hvw
  by_contra hne
  have hzero : Vec.ofFn (v - w) ≠ 0 := by
    intro h0
    rw [← Vec.toFun_inj, Vec.toFun_ofFn, Vec.toFun_zero, sub_eq_zero] at h0
    exact hne h0
  have hpos := h.form_pos _ hzero
  have hvw' : a.toMatrix *ᵥ v = a.toMatrix *ᵥ w := hvw
  rw [form_eq, Vec.toFun_ofFn, mulVec_sub, hvw', sub_self, dotProduct_zero] at hpos
  exact lt_irrefl _ hpos

theorem PosDef.inv {a : Mat α n n} (h : a.PosDef) :
  a⁻¹.PosDef
  := by
  have hsymm : a⁻¹.transpose = a⁻¹ := by
    rw [transpose_inv, h.symmetric]
  have hcongruence := h.congruence (k := a⁻¹) (by
    intro v hv
    rw [hsymm] at hv
    rw [← identity_mulVec v, ← mul_inv_cancel h.isUnit_det, mul_mulVec, hv, mulVec_zero])
  rw [inv_mul_cancel h.isUnit_det, identity_mul, hsymm] at hcongruence
  exact hcongruence

end Mat

end Numerics
