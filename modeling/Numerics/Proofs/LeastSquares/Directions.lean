import Mathlib.Tactic.Linarith
import Mathlib.Tactic.Ring
import Numerics.Proofs.LeastSquares.NormalEquations
import Numerics.Proofs.LeastSquares.Subsampling
import Numerics.Proofs.Linear.Resolution

/-!
# Directions from normal equations

Both the equations of all residuals and those of a choice of residuals are `assembled` of rows of a
Jacobian, the latter from the Jacobian of the residuals evaluated one at a time,
`Residuals.separate`. So the matrix is symmetric, with any damping, and whichever factorisation
finds a direction, the direction is the only solution. A matrix without an inverse has no
factorisation, and is reported: this is what `Directs` says.
-/

namespace Numerics

open Matrix

/-- The residuals at a point, each evaluated on its own. -/
def Residuals.separate {α : Type} {n m : Nat} (r : Residuals α n m) (x : Vec α n) : Vec α m :=
  Vec.ofFn (r.evalRow x)

theorem Residuals.Consistent.separate_eq {α : Type} {n m : Nat} {r : Residuals α n m}
    (h : r.Consistent) :
  r.separate = r.eval
  := by
  funext x
  ext i
  rw [separate, Vec.get_ofFn, h]

namespace NormalEquations

/-! ### What is found -/

section

variable {α : Type} [RealScalar α] {n : Nat} {e : NormalEquations α n}

/-- Solving fails in one way only. -/
theorem solve_eq_error {error : SolverError} (h : e.solve = .error error) :
  error = .singularSystem
  := by
  rw [solve] at h
  split at h
  · cases h
  · split at h
    · cases h
    · cases h
      rfl

end

section

variable {α : Type} [ExactReal α] {n : Nat} {e : NormalEquations α n}

/-- What is found is the only solution. -/
theorem mulVec_eq_rhs_iff (he : e.matrix.transpose = e.matrix) {d : Vec α n}
    (h : e.solve = .ok d) (d' : Vec α n) :
  e.matrix.mulVec d' = e.rhs ↔ d' = d
  := by
  obtain ⟨f, hsolve, hf⟩ := exists_solution he h
  obtain rfl : f e.rhs = d := Except.ok.inj ((hsolve e.rhs).symm.trans h)
  apply Mat.mulVec_eq_iff hf

/-- A symmetric matrix without an inverse is reported, as solutions for all right sides would make
one. -/
theorem solve_of_det_eq_zero (he : e.matrix.transpose = e.matrix)
    (hdet : e.matrix.toMatrix.det = 0) :
  e.solve = .error .singularSystem
  := by
  cases h : e.solve with
  | error error => rw [solve_eq_error h]
  | ok d =>
    obtain ⟨f, -, hf⟩ := exists_solution he h
    have hinverse := congrArg (fun a : Mat α n n => a.toMatrix.det) (Mat.mul_ofCols_axis hf)
    simp only [Mat.toMatrix_mul, Mat.toMatrix_identity, det_mul, det_one, hdet,
      zero_mul] at hinverse
    exact absurd hinverse zero_ne_one

end

variable {α : Type} [ExactScalar α] {n m : Nat}

/-! ### Sums over rows -/

theorem ofRows_eq_assembled (r : Residuals α n m) (x : Vec α n) (w : Vec α m)
    (rows : List (Fin m)) (options : Options α) :
  ofRows r x w rows options
    = assembled (jacobian r.separate x options) (r.separate x) w rows
  := by
  simp only [ofRows, assembled, row_jacobian, Residuals.separate, Vec.get_ofFn]

theorem transpose_gram (jac : Mat α m n) (w : Vec α m) (rows : List (Fin m)) :
  (gram jac w rows)ᵀ = gram jac w rows
  := by
  rw [gram, transpose_list_sum, List.map_map]
  congr 2
  funext i
  rw [Function.comp_apply, transpose_smul, transpose_vecMulVec]

/-! ### Damping -/

theorem toMatrix_damped (e : NormalEquations α n) (damping : α) :
  (e.damped damping).matrix.toMatrix = e.matrix.toMatrix + damping • 1
  := by
  ext p q
  simp [damped, Matrix.one_apply]

theorem damped_zero (e : NormalEquations α n) :
  e.damped 0 = e
  := by
  have hmatrix : e.matrix + Mat.scaledIdentity 0 = e.matrix := by
    ext p q
    simp
  rw [damped, hmatrix]

theorem transpose_damped {e : NormalEquations α n} (h : e.matrix.transpose = e.matrix)
    (damping : α) :
  (e.damped damping).matrix.transpose = (e.damped damping).matrix
  := by
  rw [damped, Mat.transpose_add, h, Mat.transpose_scaledIdentity]

end NormalEquations

/-! ### Directions -/

open NormalEquations

variable {α : Type} [ExactReal α] {n m : Nat}

/-- The equations `e` are those of the rows `rows` of `jac`, with the residuals `v` and the weights
`w`. With any damping of their diagonal, zero for none, a direction that is found is the only
solution, and a matrix without an inverse is reported. -/
structure NormalEquations.Directs (e : NormalEquations α n) (jac : Mat α m n) (v w : Vec α m)
    (rows : List (Fin m)) : Prop where
  symmetric : e.matrix.transpose = e.matrix
  matrix : e.matrix.toMatrix = gram jac w rows
  rhs : e.rhs.toFun = -moment jac v w rows
  undamped : e.damped 0 = e
  solution : ∀ damping d, (e.damped damping).solve = .ok d →
    ∀ d' : Vec α n, (gram jac w rows + damping • 1) *ᵥ d'.toFun = -moment jac v w rows ↔ d' = d
  singular : ∀ damping, (gram jac w rows + damping • 1).det = 0 →
    (e.damped damping).solve = .error .singularSystem

theorem NormalEquations.assembled_directs (jac : Mat α m n) (v w : Vec α m)
    (rows : List (Fin m)) :
  (assembled jac v w rows).Directs jac v w rows
  := by
  have hsymm : (assembled jac v w rows).matrix.transpose = (assembled jac v w rows).matrix := by
    rw [← Mat.toMatrix_inj, Mat.toMatrix_transpose, toMatrix_assembled, transpose_gram]
  constructor
  · exact hsymm
  · apply toMatrix_assembled
  · apply toFun_assembled
  · apply damped_zero
  · intro damping d hd d'
    rw [← mulVec_eq_rhs_iff (transpose_damped hsymm damping) hd, ← Vec.toFun_inj,
      Mat.toFun_mulVec, toMatrix_damped, toMatrix_assembled, damped, toFun_assembled]
  · intro damping hdet
    apply solve_of_det_eq_zero (transpose_damped hsymm damping)
    rw [toMatrix_damped, toMatrix_assembled, hdet]

/-- With exact scalars and roots, the normal equations at any point, with any weights, are sums over
rows of the Jacobian there: over all of them, or, where residuals are evaluated one at a time, over
the chosen ones. Their matrix is symmetric. With any damping, and whichever factorisation succeeds,
a direction that is found is the only solution, and a matrix without an inverse is reported as
singular. -/
theorem normal_directions (r : Residuals α n m) (x : Vec α n) (w : Vec α m) (options : Options α) :
  (ofAll r x w options).Directs (jacobian r.eval x options) (r.eval x) w (List.finRange m)
    ∧ (∀ rows, (ofRows r x w rows options).Directs (jacobian r.separate x options) (r.separate x) w
        rows)
    ∧ (r.Consistent → r.separate = r.eval)
  := by
  refine ⟨?_, ?_, Residuals.Consistent.separate_eq⟩
  · rw [ofAll_eq_assembled]
    apply assembled_directs
  · intro rows
    rw [ofRows_eq_assembled]
    apply assembled_directs

/-- One residual of two unknowns, which is zero where their sum is one. -/
noncomputable def sumToOne : Residuals ℝ 2 1 :=
  .ofFunction fun x => Vec.ofFn fun _ => x 0 + x 1 - 1

theorem isAffine_sumToOne :
  IsAffine sumToOne.eval (Mat.ofFn ![![1, 1]])
  := by
  intro x d
  ext i
  obtain rfl := Subsingleton.elim 0 i
  simp [sumToOne, Residuals.ofFunction, Mat.get_mulVec, Fin.foldl_succ_last]
  ring

/-- An equation with a negative coefficient, which symmetric factorisation refuses and elimination
solves, and one equation for two unknowns. -/
theorem normal_directions_signs :
  let r : Residuals ℝ 1 1 := .ofFunction fun x => x - Vec.fill 1
  Linear.Cholesky.factor (ofAll r 0 (Vec.fill (-1)) (.standard (1 / 1000))).matrix
      = .error .notPositiveDefinite
    ∧ (ofAll r 0 (Vec.fill (-1)) (.standard (1 / 1000))).solve = .ok (Vec.fill 1)
    ∧ (ofAll sumToOne 0 (Vec.fill 1) (.standard (1 / 1000))).solve = .error .singularSystem
  := by
  intro r
  have hspacing := Options.spacing_standard_ne_zero (1 / 1000 : ℝ)
  have hjac : jacobian r.eval 0 (.standard (1 / 1000)) = Mat.identity := by
    apply IsAffine.jacobian _ 0 hspacing
    intro x d
    ext i
    simp [r, Residuals.ofFunction, Mat.identity_mulVec]
    ring
  obtain ⟨h, -, -⟩ := normal_directions r 0 (Vec.fill (-1)) (.standard (1 / 1000))
  obtain ⟨h', -, -⟩ := normal_directions sumToOne 0 (Vec.fill 1) (.standard (1 / 1000))
  rw [hjac] at h
  rw [isAffine_sumToOne.jacobian 0 hspacing] at h'
  generalize ofAll r 0 (Vec.fill (-1)) (.standard (1 / 1000)) = e at h ⊢
  generalize ofAll sumToOne 0 (Vec.fill 1) (.standard (1 / 1000)) = e' at h' ⊢
  have hentry : e.matrix 0 0 = -1 := by
    rw [← Mat.toMatrix_apply, h.matrix, gram_finRange]
    simp [vecMulVec_apply, Mat.get_row]
  have hfactor : Linear.Cholesky.factor e.matrix = .error .notPositiveDefinite := by
    cases hc : Linear.Cholesky.factor e.matrix with
    | error error => rw [Linear.Cholesky.factor_eq_error hc]
    | ok c =>
      have hpos := (Linear.Cholesky.factor_factors h.symmetric hc).posDef.form_pos (Vec.axis 0)
        (by
          intro hzero
          have hone := congrArg (fun v : Vec ℝ 1 => v 0) hzero
          norm_num at hone)
      rw [Mat.form_axis, hentry] at hpos
      norm_num at hpos
  have hresolved : e.matrix.Resolved := by
    apply Mat.resolved_of_le_one _ le_rfl
    · show (1 / 2 ^ 52 : ℝ) < 1
      norm_num
    · intro v hv hzero
      apply hv
      ext i
      obtain rfl := Subsingleton.elim 0 i
      have himage := congrArg (fun u : Vec ℝ 1 => u 0) hzero
      simp only [Mat.get_mulVec, foldl_add, Fin.sum_univ_one, hentry, Vec.get_zero] at himage
      rw [Vec.get_zero]
      linarith
  obtain ⟨s, hs⟩ := Linear.LU.exists_factor_of_resolved hresolved
  have hsolve : e.solve = .ok (s.solve e.rhs) := by
    simp only [NormalEquations.solve, hfactor, Mat.solve, hs]
    rfl
  have hone : Vec.fill 1 = s.solve e.rhs := by
    apply (h.solution 0 _ (by rw [h.undamped, hsolve]) _).mp
    rw [gram_finRange, moment_finRange]
    funext i
    obtain rfl := Subsingleton.elim 0 i
    simp [Mat.get_row, mulVec, dotProduct, vecMulVec_apply, r, Residuals.ofFunction]
  refine ⟨hfactor, by rw [hsolve, hone], ?_⟩
  rw [← h'.undamped]
  apply h'.singular
  rw [gram_finRange, zero_smul, add_zero, det_fin_two]
  simp [vecMulVec_apply, Mat.get_row]

end Numerics
