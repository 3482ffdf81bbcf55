import Mathlib.Data.Matrix.Mul
import Numerics.Mat.Square
import Numerics.Proofs.Index.Folds

/-!
# Matrices as functions

`a.toMatrix` is the matrix `a` as a function of two indices, and `v.toFun` is the vector `v` as a
function of one. Where the scalars form a ring, these maps turn the operations of this library,
whose sums are folds in a fixed order, into the operations of linear algebra.
-/

namespace Numerics

open Matrix

variable {α : Type} {m n p : Nat}

/-! ### Vectors -/

namespace Vec

/-- The vector `v` as a function of its index. -/
def toFun (v : Vec α n) : Fin n → α :=
  fun i => v i

@[simp]
theorem toFun_apply (v : Vec α n) (i : Fin n) :
  v.toFun i = v i
  := rfl

@[simp]
theorem toFun_ofFn (f : Fin n → α) :
  (ofFn f).toFun = f
  := by
  funext i
  apply get_ofFn

@[simp]
theorem toFun_inj {v w : Vec α n} :
  v.toFun = w.toFun ↔ v = w
  := by
  constructor
  · intro h
    apply ext
    apply congrFun h
  · rintro rfl
    rfl

@[simp]
theorem toFun_zero [Zero α] :
  (0 : Vec α n).toFun = 0
  := by
  funext i
  apply get_zero

@[simp]
theorem toFun_add [Add α] (v w : Vec α n) :
  (v + w).toFun = v.toFun + w.toFun
  := by
  funext i
  apply get_add

@[simp]
theorem toFun_sub [Sub α] (v w : Vec α n) :
  (v - w).toFun = v.toFun - w.toFun
  := by
  funext i
  apply get_sub

@[simp]
theorem toFun_mul [Mul α] (v : Vec α n) (s : α) :
  (v * s).toFun = MulOpposite.op s • v.toFun
  := by
  funext i
  apply get_mul

theorem get_foldl_add [AddCommMonoid α] (v : Fin m → Vec α n) (w : Vec α n) (k : Fin n) :
  (Fin.foldl m (fun w i => w + v i) w) k = w k + ∑ i, v i k
  := by
  induction m with
  | zero => simp
  | succ m ih => rw [Fin.foldl_succ_last, get_add, ih, Fin.sum_univ_castSucc, add_assoc]

theorem get_foldBelow_add [AddCommMonoid α] (i : Fin m) (v : Fin m → Vec α n) (w : Vec α n)
    (k : Fin n) :
  (foldBelow i (fun w j => w + v j) w) k = w k + ∑ j ∈ Finset.Iio i, v j k
  := by
  have h := foldBelow_induction (P := fun r u => u k = w k + ∑ j with True ∧ j.val < r, v j k)
    (i := i) (f := fun w j => w + v j) (b := w) (by simp)
    (by
      intro j u _ hu
      rw [get_add, hu, filter_lt_succ _ j trivial, Finset.sum_insert (by simp), add_assoc,
        add_comm (v j k)])
  rw [h]
  congr 2
  ext j
  simp

theorem dot_eq [NonUnitalNonAssocSemiring α] (v w : Vec α n) :
  v.dot w = v.toFun ⬝ᵥ w.toFun
  := by
  rw [dot, foldl_add, zero_add]
  rfl

theorem dot_zero [NonUnitalNonAssocSemiring α] (v : Vec α n) :
  v.dot 0 = 0
  := by
  rw [dot_eq, toFun_zero, dotProduct_zero]

theorem dot_axis [NonAssocSemiring α] (v : Vec α n) (i : Fin n) :
  v.dot (axis i) = v i
  := by
  rw [dot, foldl_add, zero_add]
  simp

theorem dot_add [NonUnitalNonAssocSemiring α] (v w u : Vec α n) :
  v.dot (w + u) = v.dot w + v.dot u
  := by
  rw [dot_eq, dot_eq, dot_eq, toFun_add, dotProduct_add]

theorem dot_mul [Semiring α] (v w : Vec α n) (s : α) :
  v.dot (w * s) = v.dot w * s
  := by
  rw [dot_eq, dot_eq, toFun_mul, dotProduct_smul, op_smul_eq_mul]

theorem dot_comm [NonUnitalCommSemiring α] (v w : Vec α n) :
  v.dot w = w.dot v
  := by
  rw [dot_eq, dot_eq, dotProduct_comm]

protected theorem add_sub_cancel [AddCommGroup α] (v w : Vec α n) :
  v + (w - v) = w
  := by
  ext i
  simp

protected theorem eq_neg_of_add_eq_zero [AddGroup α] {v w : Vec α n} (h : v + w = 0) :
  w = -v
  := by
  ext i
  have hi := congrArg (fun u : Vec α n => u i) h
  simp only [get_add, get_zero] at hi
  rw [get_neg, zero_sub]
  exact eq_neg_of_add_eq_zero_right hi

theorem exists_ne_zero [Zero α] {v : Vec α n} (h : v ≠ 0) :
  ∃ i, v i ≠ 0
  := by
  by_contra hzero
  push Not at hzero
  apply h
  ext i
  rw [hzero, get_zero]

/-- Different vectors are a step apart that is not zero. -/
theorem exists_eq_add_of_ne [AddCommGroup α] {v w : Vec α n} (h : w ≠ v) :
  ∃ d, d ≠ 0 ∧ w = v + d
  := by
  use w - v
  constructor
  · intro hzero
    rw [← toFun_inj, toFun_sub, toFun_zero, sub_eq_zero, toFun_inj] at hzero
    exact h hzero
  · rw [← toFun_inj, toFun_add, toFun_sub, add_sub_cancel]

end Vec

/-! ### Matrices -/

namespace Mat

/-- The matrix `a` as a function of its row and its column. -/
def toMatrix (a : Mat α m n) : Matrix (Fin m) (Fin n) α :=
  Matrix.of fun i j => a i j

@[simp]
theorem toMatrix_apply (a : Mat α m n) (i : Fin m) (j : Fin n) :
  a.toMatrix i j = a i j
  := rfl

@[simp]
theorem toMatrix_inj {a b : Mat α m n} :
  a.toMatrix = b.toMatrix ↔ a = b
  := by
  constructor
  · intro h
    apply ext
    apply congrFun₂ h
  · rintro rfl
    rfl

@[simp]
theorem toMatrix_transpose (a : Mat α m n) :
  a.transpose.toMatrix = a.toMatrixᵀ
  := by
  ext i j
  apply get_transpose

@[simp]
theorem toMatrix_identity [Zero α] [One α] :
  (identity : Mat α n n).toMatrix = 1
  := by
  ext i j
  rw [toMatrix_apply, get_identity, Matrix.one_apply]

@[simp]
theorem toMatrix_add [Add α] (a b : Mat α m n) :
  (a + b).toMatrix = a.toMatrix + b.toMatrix
  := by
  ext i j
  apply get_add

@[simp]
theorem toMatrix_sub [Sub α] (a b : Mat α m n) :
  (a - b).toMatrix = a.toMatrix - b.toMatrix
  := by
  ext i j
  apply get_sub

@[simp]
theorem toMatrix_zero [Zero α] :
  (0 : Mat α m n).toMatrix = 0
  := by
  ext i j
  apply get_zero

@[simp]
theorem toMatrix_outer [Mul α] (v : Vec α m) (w : Vec α n) :
  (outer v w).toMatrix = vecMulVec v.toFun w.toFun
  := by
  ext i j
  apply get_outer

@[simp]
theorem toMatrix_mul [NonUnitalNonAssocSemiring α] (a : Mat α m n) (b : Mat α n p) :
  (a * b).toMatrix = a.toMatrix * b.toMatrix
  := by
  ext i k
  rw [toMatrix_apply, get_product, foldl_add, zero_add]
  rfl

@[simp]
theorem toFun_mulVec [NonUnitalNonAssocSemiring α] (a : Mat α m n) (v : Vec α n) :
  (a.mulVec v).toFun = a.toMatrix *ᵥ v.toFun
  := by
  funext i
  rw [Vec.toFun_apply, get_mulVec, foldl_add, zero_add]
  rfl

theorem mul_mulVec [NonUnitalSemiring α] (a : Mat α m n) (b : Mat α n p) (v : Vec α p) :
  (a * b).mulVec v = a.mulVec (b.mulVec v)
  := by
  rw [← Vec.toFun_inj, toFun_mulVec, toFun_mulVec, toFun_mulVec, toMatrix_mul, mulVec_mulVec]

theorem mul_assoc [NonUnitalSemiring α] {q : Nat} (a : Mat α m n) (b : Mat α n p) (c : Mat α p q) :
  a * b * c = a * (b * c)
  := by
  rw [← toMatrix_inj, toMatrix_mul, toMatrix_mul, toMatrix_mul, toMatrix_mul, Matrix.mul_assoc]

theorem mul_identity [NonAssocSemiring α] (a : Mat α m n) :
  a * (identity : Mat α n n) = a
  := by
  rw [← toMatrix_inj, toMatrix_mul, toMatrix_identity, Matrix.mul_one]

theorem identity_mul [NonAssocSemiring α] (a : Mat α m n) :
  (identity : Mat α m m) * a = a
  := by
  rw [← toMatrix_inj, toMatrix_mul, toMatrix_identity, Matrix.one_mul]

theorem identity_mulVec [NonAssocSemiring α] (v : Vec α n) :
  (identity : Mat α n n).mulVec v = v
  := by
  rw [← Vec.toFun_inj, toFun_mulVec, toMatrix_identity, one_mulVec]

theorem mulVec_zero [NonUnitalNonAssocSemiring α] (a : Mat α m n) :
  a.mulVec 0 = 0
  := by
  rw [← Vec.toFun_inj, toFun_mulVec, Vec.toFun_zero, Vec.toFun_zero, Matrix.mulVec_zero]

theorem mulVec_mul [CommSemiring α] (a : Mat α m n) (v : Vec α n) (s : α) :
  a.mulVec (v * s) = a.mulVec v * s
  := by
  rw [← Vec.toFun_inj, toFun_mulVec, Vec.toFun_mul, mulVec_smul, Vec.toFun_mul, toFun_mulVec]

protected theorem zero_mulVec [NonUnitalNonAssocSemiring α] (v : Vec α n) :
  (0 : Mat α m n).mulVec v = 0
  := by
  rw [← Vec.toFun_inj, toFun_mulVec, toMatrix_zero, Matrix.zero_mulVec, Vec.toFun_zero]

protected theorem add_mulVec [NonUnitalNonAssocSemiring α] (a b : Mat α m n) (v : Vec α n) :
  (a + b).mulVec v = a.mulVec v + b.mulVec v
  := by
  rw [← Vec.toFun_inj, Vec.toFun_add, toFun_mulVec, toFun_mulVec, toFun_mulVec, toMatrix_add,
    Matrix.add_mulVec]

theorem outer_mulVec [NonUnitalSemiring α] (v : Vec α m) (w u : Vec α n) :
  (outer v w).mulVec u = v * w.dot u
  := by
  rw [← Vec.toFun_inj, Vec.toFun_mul, toFun_mulVec, toMatrix_outer, vecMulVec_mulVec, Vec.dot_eq]

theorem transpose_outer [CommMagma α] (v : Vec α n) :
  (outer v v).transpose = outer v v
  := by
  rw [← toMatrix_inj, toMatrix_transpose, toMatrix_outer, transpose_vecMulVec]

theorem mul_add [NonUnitalNonAssocSemiring α] (a : Mat α m n) (b c : Mat α n p) :
  a * (b + c) = a * b + a * c
  := by
  rw [← toMatrix_inj, toMatrix_mul, toMatrix_add, toMatrix_add, toMatrix_mul, toMatrix_mul,
    Matrix.mul_add]

theorem sub_add_cancel [AddGroup α] (a b : Mat α m n) :
  a - b + b = a
  := by
  ext i j
  simp

theorem dot_transpose_mulVec [NonUnitalCommSemiring α] (a : Mat α m n) (v : Vec α n) (w : Vec α m) :
  v.dot (a.transpose.mulVec w) = (a.mulVec v).dot w
  := by
  rw [Vec.dot_eq, Vec.dot_eq, toFun_mulVec, toFun_mulVec, toMatrix_transpose,
    dotProduct_transpose_mulVec, dotProduct_comm]

@[simp]
theorem transpose_transpose (a : Mat α m n) :
  a.transpose.transpose = a
  := by
  ext i j
  rw [get_transpose, get_transpose]

theorem transpose_mul [NonUnitalCommSemiring α] (a : Mat α m n) (b : Mat α n p) :
  (a * b).transpose = b.transpose * a.transpose
  := by
  rw [← toMatrix_inj, toMatrix_transpose, toMatrix_mul, Matrix.transpose_mul, toMatrix_mul,
    toMatrix_transpose, toMatrix_transpose]

theorem transpose_add [Add α] (a b : Mat α m n) :
  (a + b).transpose = a.transpose + b.transpose
  := by
  ext i j
  rw [get_transpose, get_add, get_add, get_transpose, get_transpose]

/-- The matrix whose rows are rows of `a`. -/
theorem toMatrix_ofRows_row (a : Mat α m n) (f : Fin p → Fin m) :
  (ofRows fun i => a.row (f i)).toMatrix = a.toMatrix.submatrix f id
  := by
  ext i j
  apply get_ofRows

/-- The matrix whose columns are the vectors `f j`. -/
theorem toMatrix_ofCols_ofFn (f : Fin n → Vec α m) :
  (ofCols (Vec.ofFn f)).toMatrix = Matrix.of fun i j => f j i
  := by
  ext i j
  rw [toMatrix_apply, get_ofCols, Vec.get_ofFn, Matrix.of_apply]

end Mat

end Numerics
