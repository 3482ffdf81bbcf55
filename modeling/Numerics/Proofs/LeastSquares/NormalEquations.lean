import Mathlib.Tactic.Ring
import Numerics.LeastSquares.NormalEquations
import Numerics.Proofs.Difference.Affine
import Numerics.Proofs.Linear.Elimination
import Numerics.Proofs.Linear.Symmetric

/-!
# Normal equations in exact arithmetic

Whether `NormalEquations.solve` succeeds depends on the matrix alone, and where the matrix is
symmetric, what it finds is the only solution, whichever of the two factorisations found it.

The normal equations `assembled` of some rows of a Jacobian are sums over these rows: their matrix
is the `gram` matrix of the rows, and their right side the opposite of the `moment` of the rows. For
affine residuals with the matrix `a`, and with weights of one, the matrix of the equations of all
residuals is `a.transpose * a`, and the right side is the opposite of `a.transpose` times the
residuals. Where that is zero, the cost at a distance `d` is higher by the square of the length of
`a * d`.
-/

namespace Numerics

open Matrix

variable {n m : Nat}

/-! ### Solutions -/

namespace NormalEquations

variable {α : Type} [ExactReal α]

/-- A symmetric matrix that is accepted with one right side is accepted with all, and what is found
are solutions. -/
theorem exists_solution {a : Mat α n n} (ha : a.transpose = a) {b d : Vec α n}
    (h : solve ⟨a, b⟩ = .ok d) :
  ∃ f : Vec α n → Vec α n, (∀ b, solve ⟨a, b⟩ = .ok (f b)) ∧ ∀ b, a.mulVec (f b) = b
  := by
  simp only [solve] at h ⊢
  cases hfactor : Linear.Cholesky.factor a with
  | ok c =>
    use c.solve
    exact ⟨fun _ => rfl, (Linear.Cholesky.factor_factors ha hfactor).mulVec_solve⟩
  | error e =>
    rw [hfactor] at h
    cases helimination : Linear.LU.factor a with
    | ok s =>
      use s.solve
      constructor
      · intro b
        simp only [Mat.solve, helimination]
        rfl
      · exact (Linear.LU.factor_factors helimination).mulVec_solve
    | error e' =>
      simp only [Mat.solve, helimination] at h
      cases h

end NormalEquations

variable {α : Type} [ExactScalar α]

/-! ### Sums over rows -/

namespace NormalEquations

/-- The sum of the outer squares of the rows `rows` of `jac`, with the weights `w`. -/
def gram (jac : Mat α m n) (w : Vec α m) (rows : List (Fin m)) : Matrix (Fin n) (Fin n) α :=
  (rows.map fun i => w i • vecMulVec (jac.row i).toFun (jac.row i).toFun).sum

/-- The sum of the rows `rows` of `jac` times the residuals `v`, with the weights `w`. -/
def moment (jac : Mat α m n) (v w : Vec α m) (rows : List (Fin m)) : Fin n → α :=
  (rows.map fun i => (w i * v i) • (jac.row i).toFun).sum

theorem gram_finRange (jac : Mat α m n) (w : Vec α m) :
  gram jac w (List.finRange m) = ∑ i, w i • vecMulVec (jac.row i).toFun (jac.row i).toFun
  := (Fin.sum_univ_def _).symm

theorem moment_finRange (jac : Mat α m n) (v w : Vec α m) :
  moment jac v w (List.finRange m) = ∑ i, (w i * v i) • (jac.row i).toFun
  := (Fin.sum_univ_def _).symm

/-- The equations made of the rows `rows` of `jac`, with the residuals `v` and the weights `w`. -/
def assembled (jac : Mat α m n) (v w : Vec α m) (rows : List (Fin m)) : NormalEquations α n :=
  rows.foldl (fun e i => e.addRow (jac.row i) (v i) (w i)) empty

theorem ofAll_eq_assembled (r : Residuals α n m) (x : Vec α n) (w : Vec α m)
    (options : Options α) :
  ofAll r x w options
    = assembled (jacobian r.eval x options) (r.eval x) w (List.finRange m)
  := by
  simp only [ofAll, assembled, Fin.foldl_eq_finRange_foldl]

theorem foldl_addRow (jac : Mat α m n) (v w : Vec α m) (rows : List (Fin m))
    (e : NormalEquations α n) :
  (rows.foldl (fun e i => e.addRow (jac.row i) (v i) (w i)) e).matrix.toMatrix
      = e.matrix.toMatrix + gram jac w rows
    ∧ (rows.foldl (fun e i => e.addRow (jac.row i) (v i) (w i)) e).rhs.toFun
      = e.rhs.toFun - moment jac v w rows
  := by
  induction rows generalizing e with
  | nil => simp [gram, moment]
  | cons i rows ih =>
    obtain ⟨hmatrix, hrhs⟩ := ih (e.addRow (jac.row i) (v i) (w i))
    have hrow : (e.addRow (jac.row i) (v i) (w i)).matrix.toMatrix
        = e.matrix.toMatrix + w i • vecMulVec (jac.row i).toFun (jac.row i).toFun := by
      ext p q
      simp only [addRow, Mat.toMatrix_apply, Mat.get_add, Mat.get_mul, Mat.get_outer,
        Matrix.add_apply, Matrix.smul_apply, vecMulVec_apply, Vec.toFun_apply, smul_eq_mul]
      ring
    have hterm : (e.addRow (jac.row i) (v i) (w i)).rhs.toFun
        = e.rhs.toFun - (w i * v i) • (jac.row i).toFun := by
      funext p
      simp only [addRow, Vec.toFun_apply, Vec.get_sub, Vec.get_mul, Pi.sub_apply, Pi.smul_apply,
        smul_eq_mul]
      ring
    constructor
    · rw [List.foldl_cons, hmatrix, hrow, add_assoc, gram, gram, List.map_cons, List.sum_cons]
    · rw [List.foldl_cons, hrhs, hterm, sub_sub, moment, moment, List.map_cons, List.sum_cons]

theorem toMatrix_assembled (jac : Mat α m n) (v w : Vec α m) (rows : List (Fin m)) :
  (assembled jac v w rows).matrix.toMatrix = gram jac w rows
  := by
  rw [assembled, (foldl_addRow jac v w rows empty).1, empty, Mat.toMatrix_zero, zero_add]

theorem toFun_assembled (jac : Mat α m n) (v w : Vec α m) (rows : List (Fin m)) :
  (assembled jac v w rows).rhs.toFun = -moment jac v w rows
  := by
  rw [assembled, (foldl_addRow jac v w rows empty).2, empty, Vec.toFun_zero, zero_sub]

/-- The equations of all residuals are sums over the rows of the Jacobian. -/
theorem get_ofAll (r : Residuals α n m) (x : Vec α n) (w : Vec α m) (options : Options α) :
  (∀ p q, (ofAll r x w options).matrix p q
      = ∑ i, jacobian r.eval x options i p * jacobian r.eval x options i q * w i)
    ∧ ∀ p, (ofAll r x w options).rhs p
      = -∑ i, jacobian r.eval x options i p * (w i * r.eval x i)
  := by
  rw [ofAll_eq_assembled]
  constructor
  · intro p q
    rw [← Mat.toMatrix_apply, toMatrix_assembled, gram_finRange, Matrix.sum_apply]
    apply Finset.sum_congr rfl
    intro i _
    simp only [Matrix.smul_apply, vecMulVec_apply, Vec.toFun_apply, Mat.get_row, smul_eq_mul]
    ring
  · intro p
    rw [← Vec.toFun_apply, toFun_assembled, moment_finRange, Pi.neg_apply, Finset.sum_apply]
    congr 1
    apply Finset.sum_congr rfl
    intro i _
    simp only [Pi.smul_apply, Vec.toFun_apply, Mat.get_row, smul_eq_mul]
    ring

/-- The equations of affine residuals, with weights of one. -/
theorem ofAll_affine {r : Residuals α n m} {a : Mat α m n} (hr : IsAffine r.eval a) (x : Vec α n)
    {options : Options α} (hspacing : options.spacing ≠ 0) :
  ofAll r x (Vec.fill 1) options = ⟨a.transpose * a, -(a.transpose.mulVec (r.eval x))⟩
  := by
  obtain ⟨hmatrix, hrhs⟩ := get_ofAll r x (Vec.fill 1) options
  rw [hr.jacobian x hspacing] at hmatrix hrhs
  have hmatrix' : (ofAll r x (Vec.fill 1) options).matrix = a.transpose * a := by
    ext p q
    rw [hmatrix, Mat.get_product, foldl_add, zero_add]
    simp
  have hrhs' : (ofAll r x (Vec.fill 1) options).rhs = -(a.transpose.mulVec (r.eval x)) := by
    ext p
    rw [hrhs, Vec.get_neg, Mat.get_mulVec, foldl_add, zero_add, zero_sub]
    simp
  rw [← hmatrix', ← hrhs']

end NormalEquations

/-! ### Costs -/

namespace Residuals

variable {r : Residuals α n m} {a : Mat α m n}

/-- The cost with weights of one is the square of a length, in any arithmetic with a one. -/
theorem cost_fill_one {α : Type} [RealScalar α] (hone : ∀ a : α, 1 * a = a)
    (r : Residuals α n m) (x : Vec α n) :
  r.cost (Vec.fill 1) x = (r.eval x).normSquared
  := by
  simp only [cost, Vec.get_fill, hone]
  rfl

/-- The cost at the distance `d` from a point that solves the equations. -/
theorem cost_add (hr : IsAffine r.eval a) {x : Vec α n} (hx : a.transpose.mulVec (r.eval x) = 0)
    (d : Vec α n) :
  r.cost (Vec.fill 1) (x + d) = r.cost (Vec.fill 1) x + (a.mulVec d).dot (a.mulVec d)
  := by
  have hcross : (a.mulVec d).dot (r.eval x) = 0 := by
    rw [← Mat.dot_transpose_mulVec, hx, Vec.dot_zero]
  rw [cost_fill_one one_mul, cost_fill_one one_mul, Vec.normSquared, Vec.normSquared, hr,
    Vec.dot_self_add, hcross, mul_zero, add_zero]

end Residuals

end Numerics
