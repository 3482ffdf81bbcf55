import Mathlib.Algebra.Order.Field.Basic
import Mathlib.Algebra.Order.BigOperators.Ring.Finset
import Mathlib.Tactic.Ring
import Numerics.Proofs.LeastSquares.Directions
import Numerics.Proofs.Linear.Squares

/-!
# Damped equations

The form of a symmetric matrix that is `Coercive` with the constant `c` is at least `c` times the
square of the length. A positive semidefinite matrix becomes coercive by adding a multiple of the
identity, as damping does to the normal equations with weights that are not negative, whatever the
rank of the Jacobian.

A pivot of a symmetric factorisation is a value of the form at a vector with an entry of one. So no
pivot of a coercive matrix is less than the constant, and the matrix is factored if the constant
exceeds the floor. The solutions point to the side of the right side, and are no longer than it
divided by the constant.
-/

namespace Numerics

open Matrix NormalEquations

variable {α : Type} [ExactReal α] {n m : Nat}

/-! ### Lengths -/

namespace Vec

/-- The inequality of Cauchy and Schwarz. -/
theorem dot_le_norm_mul_norm (v w : Vec α n) :
  v.dot w ≤ v.norm * w.norm
  := by
  have hsquares : v.dot w ^ 2 ≤ (v.norm * w.norm) ^ 2 := by
    rw [mul_pow, pow_two v.norm, pow_two w.norm, norm_mul_norm, norm_mul_norm, dot_eq, dot_eq,
      dot_eq]
    simp only [dotProduct, ← pow_two]
    apply Finset.sum_mul_sq_le_sq_mul_sq
  apply (le_abs_self _).trans
  apply abs_le_of_sq_le_sq hsquares (mul_nonneg v.norm_nonneg w.norm_nonneg)

theorem Monic.one_le_dot {v : Vec α n} {j : Fin n} (h : v.Monic j) :
  1 ≤ v.dot v
  := by
  have hentry : v.toFun j * v.toFun j = 1 := by
    rw [toFun_apply, h.eq_one, one_mul]
  rw [dot_eq, dotProduct, ← hentry]
  apply Finset.single_le_sum (f := fun i => v.toFun i * v.toFun i) _ (Finset.mem_univ j)
  intro i _
  apply mul_self_nonneg

end Vec

/-! ### Coercive matrices -/

namespace Mat

/-- The matrix `a` is symmetric, and its form is at least `c` times the square of the length. -/
structure Coercive (a : Mat α n n) (c : α) : Prop where
  symmetric : a.transpose = a
  le_form : ∀ v, c * v.dot v ≤ a.form v

/-- Adding a multiple of the identity to a positive semidefinite matrix makes it coercive. -/
theorem PosSemidef.coercive {p : Mat α n n} (hp : p.PosSemidef) (c : α) :
  (p + scaledIdentity c).Coercive c
  := by
  constructor
  · rw [transpose_add, hp.symmetric, transpose_scaledIdentity]
  · intro v
    rw [form_add, form_scaledIdentity]
    apply le_add_of_nonneg_left (hp.form_nonneg v)

namespace Coercive

variable {a : Mat α n n} {c : α}

theorem le_form_of_monic (h : a.Coercive c) (hc : 0 ≤ c) {v : Vec α n} {j : Fin n}
    (hv : v.Monic j) :
  c ≤ a.form v
  := by
  apply le_trans _ (h.le_form v)
  apply le_mul_of_one_le_right hc hv.one_le_dot

/-- A coercive matrix is factored, if the constant is not negligible beside any entry of the
diagonal. -/
theorem exists_factor (h : a.Coercive c) (hc : 0 ≤ c) (hfloor : ∀ i, epsilon * |a i i| * n < c) :
  ∃ f, Linear.Cholesky.factor a = .ok f
  := by
  apply (Linear.Cholesky.exists_factor_iff h.symmetric).mpr
  intro j v hv
  apply lt_of_lt_of_le _ (h.le_form_of_monic hc hv)
  exact (Linear.Cholesky.floor_lt_iff j).mpr hfloor

/-- No pivot that a factorisation comes to is less than the constant. -/
theorem le_pivot (h : a.Coercive c) (hc : 0 ≤ c) {j : Fin n} {l : Mat α n n}
    (hl : Linear.Cholesky.Partial a j l) :
  c ≤ Linear.Cholesky.pivot a l j
  := by
  obtain ⟨v, hv, hform⟩ := hl.exists_form_eq_pivot h.symmetric
  rw [← hform]
  apply h.le_form_of_monic hc hv

/-- A vector and its image, if this is not zero, point to the same side. -/
theorem dot_pos (h : a.Coercive c) (hc : 0 < c) {b d : Vec α n} (hd : a.mulVec d = b)
    (hb : b ≠ 0) :
  0 < b.dot d
  := by
  have hne : d ≠ 0 := by
    rintro rfl
    rw [mulVec_zero] at hd
    exact hb hd.symm
  calc 0
    _ < c * d.dot d := mul_pos hc (Vec.dot_self_pos hne)
    _ ≤ a.form d := h.le_form d
    _ = b.dot d := by rw [form, hd, Vec.dot_comm]

/-- The length of a vector is at most that of its image, divided by the constant. -/
theorem norm_le (h : a.Coercive c) (hc : 0 < c) {b d : Vec α n} (hd : a.mulVec d = b) :
  d.norm ≤ b.norm / c
  := by
  rw [le_div_iff₀ hc]
  by_cases hzero : d.norm = 0
  · rw [hzero, zero_mul]
    apply b.norm_nonneg
  · have hpos : 0 < d.norm := lt_of_le_of_ne d.norm_nonneg (Ne.symm hzero)
    apply le_of_mul_le_mul_left _ hpos
    calc d.norm * (d.norm * c)
      _ = c * d.dot d := by rw [← d.norm_mul_norm]; ring
      _ ≤ a.form d := h.le_form d
      _ = d.dot b := by rw [form, hd]
      _ ≤ d.norm * b.norm := d.dot_le_norm_mul_norm b

end Coercive

end Mat

/-- What a coercive matrix `a` with the constant `c` has to offer: a symmetric factorisation comes
to every column with a pivot of at least `c`, and each system is solved, by a vector that points to
the side of the right side and is no longer than it divided by `c`. -/
structure Mat.WellPosed (a : Mat α n n) (c : α) : Prop where
  pivots : ∀ j : Fin n, ∃ l,
    Linear.Cholesky.steps a (Linear.Cholesky.floor a) j.val (Nat.le_of_lt j.isLt) = .ok l
      ∧ c ≤ Linear.Cholesky.pivot a l j
  solutions : ∀ b, ∃ d, NormalEquations.solve ⟨a, b⟩ = .ok d
    ∧ a.mulVec d = b
    ∧ (b ≠ 0 → 0 < b.dot d)
    ∧ d.norm ≤ b.norm / c

theorem Mat.Coercive.wellPosed {a : Mat α n n} {c : α} (h : a.Coercive c) (hc : 0 < c)
    (hfloor : ∀ i, epsilon * |a i i| * n < c) :
  a.WellPosed c
  := by
  obtain ⟨f, hf⟩ := h.exists_factor hc.le hfloor
  constructor
  · intro j
    obtain ⟨l, _, hl, -⟩ := steps_eq_ok (fun _ _ => rfl) n le_rfl
      (Linear.Cholesky.factor_eq_ok_iff.mp hf) j j.isLt
    use l, hl
    apply h.le_pivot hc.le (Linear.Cholesky.partial_steps (Linear.Cholesky.floor_nonneg a) hl)
  · intro b
    have hd : a.mulVec (f.solve b) = b :=
      (Linear.Cholesky.factor_factors h.symmetric hf).mulVec_solve b
    refine ⟨f.solve b, ?_, hd, h.dot_pos hc hd, h.norm_le hc hd⟩
    simp only [NormalEquations.solve, hf]

/-! ### Normal equations -/

theorem NormalEquations.matrix_ofAll (r : Residuals α n m) (x : Vec α n) (w : Vec α m)
    (options : Options α) :
  (ofAll r x w options).matrix
    = (jacobian r.eval x options).transpose * Mat.diagonal w * jacobian r.eval x options
  := by
  have hdiagonal : (Mat.diagonal w).toMatrix = Matrix.diagonal w.toFun := by
    ext i j
    rw [Mat.toMatrix_apply, Mat.get_diagonal, Matrix.diagonal_apply, Vec.toFun_apply]
  ext p q
  rw [(get_ofAll r x w options).1, ← Mat.toMatrix_apply, Mat.toMatrix_mul, Mat.toMatrix_mul,
    hdiagonal, Mat.toMatrix_transpose, Matrix.mul_apply]
  apply Finset.sum_congr rfl
  intro i _
  rw [Matrix.mul_diagonal, transpose_apply, Mat.toMatrix_apply, Mat.toMatrix_apply,
    Vec.toFun_apply, mul_right_comm]

theorem NormalEquations.posSemidef_ofAll (r : Residuals α n m) (x : Vec α n) {w : Vec α m}
    (hw : ∀ i, 0 ≤ w i) (options : Options α) :
  (ofAll r x w options).matrix.PosSemidef
  := by
  have hcongruence := (Mat.posSemidef_diagonal hw).congruence
    (jacobian r.eval x options).transpose
  rw [Mat.transpose_transpose, ← matrix_ofAll] at hcongruence
  exact hcongruence

theorem fill_one_nonneg (i : Fin m) :
  0 ≤ (Vec.fill 1 : Vec α m) i
  := by
  rw [Vec.get_fill]
  exact zero_le_one

/-! ### Damped equations -/

/-- Damped normal equations are well posed, if the damping is not negligible. -/
theorem NormalEquations.wellPosed_damped (r : Residuals α n m) (x : Vec α n) {w : Vec α m}
    (hw : ∀ i, 0 ≤ w i) (options : Options α) {damping : α} (hdamping : 0 < damping)
    (hfloor : ∀ i, epsilon * n * ((ofAll r x w options).matrix i i + damping) < damping) :
  ((ofAll r x w options).damped damping).matrix.WellPosed damping
  := by
  have hp := posSemidef_ofAll r x hw options
  apply (hp.coercive damping).wellPosed hdamping
  intro i
  have hentry : 0 ≤ (ofAll r x w options).matrix i i := by
    rw [← Mat.form_axis]
    apply hp.form_nonneg
  rw [Mat.get_add, Mat.get_scaledIdentity, if_pos rfl,
    abs_of_nonneg (add_nonneg hentry hdamping.le), mul_right_comm]
  exact hfloor i

/-- The one equation for two unknowns has the same coefficients for both. -/
theorem matrix_ofAll_sumToOne (tolerance : ℝ) (i j : Fin 2) :
  (ofAll sumToOne 0 (Vec.fill 1) (.standard tolerance)).matrix i j = 1
  := by
  rw [(get_ofAll _ _ _ _).1,
    isAffine_sumToOne.jacobian 0 (Options.spacing_standard_ne_zero tolerance)]
  fin_cases i <;> fin_cases j <;> simp

/-- The default damping is not negligible beside them. -/
theorem floor_sumToOne (tolerance : ℝ) (i : Fin 2) :
  epsilon * (2 : ℕ)
      * ((ofAll sumToOne 0 (Vec.fill 1) (.standard tolerance)).matrix i i + 1 / 1000)
    < (1 / 1000 : ℝ)
  := by
  have hε : (epsilon : ℝ) = 1 / 2 ^ 52 := rfl
  rw [matrix_ofAll_sumToOne, hε]
  norm_num

/-- With exact scalars and roots, whatever the residuals and whatever the rank of their Jacobian:
let no weight be negative, and let the damping be positive and not negligible beside any entry of
the damped diagonal. Then no pivot of the damped normal equations is less than the damping, they are
solved with every right side, and the solution points to the side of the right side and is no longer
than it divided by the damping. -/
theorem damped_equations_wellPosed (r : Residuals α n m) (x : Vec α n) {w : Vec α m}
    (hw : ∀ i, 0 ≤ w i) (options : Options α) {damping : α} (hdamping : 0 < damping)
    (hfloor : ∀ i, epsilon * n * ((ofAll r x w options).matrix i i + damping) < damping) :
  (ofAll r x w options).matrix
      = (jacobian r.eval x options).transpose * Mat.diagonal w * jacobian r.eval x options
    ∧ ((ofAll r x w options).damped damping).matrix.WellPosed damping
  := ⟨matrix_ofAll r x w options, wellPosed_damped r x hw options hdamping hfloor⟩

/-- One equation for two unknowns, which has no direction without damping. -/
theorem damped_equations_wellPosed_sum :
  (ofAll sumToOne 0 (Vec.fill 1) (.standard (1 / 1000))).matrix.toMatrix.det = 0
    ∧ (∀ i, epsilon * (2 : ℕ)
        * ((ofAll sumToOne 0 (Vec.fill 1) (.standard (1 / 1000))).matrix i i + 1 / 1000)
      < (1 / 1000 : ℝ))
    ∧ ((ofAll sumToOne 0 (Vec.fill 1) (.standard (1 / 1000))).damped (1 / 1000)).matrix.WellPosed
        (1 / 1000)
  := by
  refine ⟨?_, floor_sumToOne _, ?_⟩
  · rw [det_fin_two]
    simp only [Mat.toMatrix_apply, matrix_ofAll_sumToOne, sub_self]
  · exact (damped_equations_wellPosed sumToOne 0 fill_one_nonneg (.standard (1 / 1000))
      (by norm_num) (floor_sumToOne _)).2

end Numerics
