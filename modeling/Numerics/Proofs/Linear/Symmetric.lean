import Mathlib.LinearAlgebra.Matrix.Nondegenerate
import Numerics.Linear.Cholesky
import Numerics.Proofs.Linear.Triangular
import Numerics.Proofs.Mat.Inverse
import Numerics.Proofs.Mat.Positive
import Numerics.Proofs.Steps

/-!
# Symmetric factorisation in exact arithmetic

In any arithmetic the factor is found in one step for each column, which fails because the square of
the diagonal entry does not exceed its bound or sets the column. Nothing above the diagonal of the
matrix is read, by `factor_congr`.

With exact scalars and exact roots the columns that are set multiply to the matrix: `Partial` is
what holds along the way. A complete factor has a positive diagonal, so it is invertible, and the
matrix is positive definite.
-/

namespace Numerics.Linear.Cholesky

open Matrix

variable {n : Nat}

/-! ### Steps -/

section

variable {α : Type} [RealScalar α] {a a' l l' : Mat α n n} {bound : α} {e : Failure}

theorem get_column (a l : Mat α n n) (j : Fin n) (diag : α) (i : Fin n) :
  column a l j diag i
    = if i < j then 0
      else if i = j then diag
      else foldBelow j (fun s k => s - l i k * l j k) (a i j) / diag
  := Vec.get_ofFn _ i

theorem column_self (a l : Mat α n n) (j : Fin n) (diag : α) :
  column a l j diag j = diag
  := by
  rw [get_column, if_neg (lt_irrefl j), if_pos rfl]

theorem step_eq (a : Mat α n n) (bound : α) (l : Mat α n n) (j : Fin n) :
  step a bound l j
    = if bound < pivot a l j then .ok (l.setCol j (column a l j (sqrt (pivot a l j))))
      else .error .notPositiveDefinite
  := rfl

theorem step_eq_ok {j : Fin n} (h : step a bound l j = .ok l') :
  bound < pivot a l j ∧ l' = l.setCol j (column a l j (sqrt (pivot a l j)))
  := by
  rw [step_eq] at h
  split at h
  case isTrue hpivot =>
    cases h
    use hpivot
  case isFalse => cases h

theorem step_eq_error {j : Fin n} (h : step a bound l j = .error e) :
  e = .notPositiveDefinite
  := by
  rw [step_eq] at h
  split at h
  · cases h
  · cases h
    rfl

/-- The run goes on if the next pivot exceeds the bound. -/
theorem steps_succ_eq_ok {k : Nat} (h : k + 1 ≤ n)
    (hl : steps a bound k (Nat.le_of_succ_le h) = .ok l) (hpivot : bound < pivot a l ⟨k, h⟩) :
  steps a bound (k + 1) h
    = .ok (l.setCol ⟨k, h⟩ (column a l ⟨k, h⟩ (sqrt (pivot a l ⟨k, h⟩))))
  := by
  rw [steps, hl]
  apply if_pos hpivot

theorem factor_eq_ok_iff {c : Cholesky α n} :
  factor a = .ok c ↔ steps a (floor a) n (Nat.le_refl n) = .ok c.lower
  := by
  constructor
  · intro h
    obtain ⟨l, hl, hc⟩ := bind_eq_ok.mp h
    obtain rfl := Except.ok.inj hc
    exact hl
  · intro h
    apply bind_eq_ok.mpr
    exact ⟨c.lower, h, rfl⟩

/-- The factorisation fails in one way only. -/
theorem factor_eq_error (h : factor a = .error e) :
  e = .notPositiveDefinite
  := by
  obtain hl | ⟨l, -, hc⟩ := bind_eq_error.mp h
  · obtain ⟨j, u, hu⟩ := steps_error (fun _ => rfl) (fun _ _ => rfl) n _ hl
    apply step_eq_error hu
  · cases hc

/-! ### What is read -/

theorem step_congr (h : ∀ i j, j ≤ i → a i j = a' i j) (bound : α) (l : Mat α n n) (j : Fin n) :
  step a bound l j = step a' bound l j
  := by
  have hpivot : pivot a l j = pivot a' l j := by
    rw [pivot, pivot, h j j le_rfl]
  have hcolumn : ∀ diag, column a l j diag = column a' l j diag := by
    intro diag
    ext i
    rw [get_column, get_column]
    split_ifs with hij
    · rfl
    · rfl
    · rw [h i j (not_lt.mp hij)]
  rw [step_eq, step_eq, hpivot, hcolumn]

theorem steps_congr (h : ∀ i j, j ≤ i → a i j = a' i j) (bound : α) (k : Nat) (hk : k ≤ n) :
  steps a bound k hk = steps a' bound k hk
  := by
  induction k with
  | zero => rfl
  | succ k ih =>
    rw [steps, steps, ih]
    congr 1
    funext l
    apply step_congr h

/-- Matrices that agree on and below the diagonal have the same factorisation. -/
theorem factor_congr (h : ∀ i j, j ≤ i → a i j = a' i j) :
  factor a = factor a'
  := by
  have hfloor : floor a = floor a' := by
    have hdiag : ∀ i, a i i = a' i i := fun i => h i i le_rfl
    simp only [floor, hdiag]
  rw [factor, factor, hfloor, steps_congr h]

end

/-! ### Columns -/

section

variable {α : Type} [ExactReal α] {a l l' : Mat α n n} {bound : α}

/-- The columns from `k` on and the entries above the diagonal are zero, and the others multiply to
the first `k` columns of `a` on and below the diagonal, with a positive diagonal. -/
structure Partial (a : Mat α n n) (k : Nat) (l : Mat α n n) : Prop where
  above : ∀ i j, i < j → l i j = 0
  after : ∀ i j, k ≤ j.val → l i j = 0
  diagonal_pos : ∀ j, j.val < k → 0 < l j j
  product : ∀ i j, j ≤ i → j.val < k → ∑ m, l i m * l j m = a i j

theorem partial_zero (a : Mat α n n) :
  Partial a 0 0
  := by
  constructor
  · intro i j _
    apply Mat.get_zero
  · intro i j _
    apply Mat.get_zero
  · intro j hj
    exact absurd hj (Nat.not_lt_zero _)
  · intro i j _ hj
    exact absurd hj (Nat.not_lt_zero _)

theorem floor_nonneg (a : Mat α n n) :
  0 ≤ floor a
  := by
  have hscale : 0 ≤ Fin.foldl n (fun m i => maxNum m (abs (a i i))) 0 := by
    simp only [maxNum_eq, abs_eq]
    apply ((foldl_max_le_iff (fun i => |a i i|) 0 _).mp le_rfl).1
  rw [floor, nat_eq]
  apply mul_nonneg (mul_nonneg epsilon_pos.le hscale) (Nat.cast_nonneg n)

/-- Setting a column where it is zero at a row keeps the products of the rows with that row. -/
theorem sum_setCol_of_zero {k j : Fin n} {c : Vec α n} (hc : c j = 0) (hl : l j k = 0) (i : Fin n) :
  ∑ m, l.setCol k c i m * l.setCol k c j m = ∑ m, l i m * l j m
  := by
  apply Finset.sum_congr rfl
  intro m _
  rw [Mat.get_setCol, Mat.get_setCol]
  split
  case isTrue hm =>
    subst hm
    rw [hc, hl, mul_zero, mul_zero]
  case isFalse => rfl

/-- Setting a column changes the products of the rows with its own row by one term, where that row
is zero after the diagonal. -/
theorem sum_setCol_self {j : Fin n} (hl : ∀ m, j < m → l j m = 0) (c : Vec α n) (i : Fin n) :
  ∑ m, l.setCol j c i m * l.setCol j c j m = c i * c j + ∑ m ∈ Finset.Iio j, l i m * l j m
  := by
  have hafter : ∀ m, j < m → l.setCol j c i m * l.setCol j c j m = 0 := by
    intro m hm
    rw [Mat.get_setCol, Mat.get_setCol, if_neg hm.ne, if_neg hm.ne, hl m hm, mul_zero]
  have hbefore : ∀ m ∈ Finset.Iio j,
      l.setCol j c i m * l.setCol j c j m = l i m * l j m := by
    intro m hm
    have hne := (Finset.mem_Iio.mp hm).ne'
    rw [Mat.get_setCol, Mat.get_setCol, if_neg hne, if_neg hne]
  rw [sum_eq_add_sum_Iio hafter, Finset.sum_congr rfl hbefore, Mat.get_setCol, Mat.get_setCol,
    if_pos rfl, if_pos rfl]

/-- The products of the column that is set with its diagonal entry make up for what the columns
before it leave. -/
theorem column_mul_column_self {i j : Fin n} (hij : j ≤ i) (hpivot : 0 < pivot a l j) :
  column a l j (sqrt (pivot a l j)) i * column a l j (sqrt (pivot a l j)) j
    = a i j - ∑ m ∈ Finset.Iio j, l i m * l j m
  := by
  rw [column_self, get_column, if_neg hij.not_gt]
  split
  case isTrue h =>
    subst h
    rw [sqrt_mul_sqrt _ hpivot.le]
    apply foldBelow_sub
  case isFalse =>
    rw [div_mul_cancel₀ _ (sqrt_pos hpivot).ne']
    apply foldBelow_sub

/-- A step keeps the invariant. -/
theorem Partial.step {j : Fin n} (h : Partial a j l) (hb : 0 ≤ bound)
    (hl : Cholesky.step a bound l j = .ok l') :
  Partial a (j.val + 1) l'
  := by
  obtain ⟨hpivot, rfl⟩ := step_eq_ok hl
  have hpos : 0 < pivot a l j := hb.trans_lt hpivot
  constructor
  · intro i k hik
    rw [Mat.get_setCol]
    split
    case isTrue hjk =>
      subst hjk
      rw [get_column, if_pos hik]
    case isFalse => apply h.above i k hik
  · intro i k hjk
    rw [Mat.get_setCol, if_neg (Fin.ne_of_lt hjk)]
    apply h.after i k (Nat.le_of_succ_le hjk)
  · intro k hk
    rw [Mat.get_setCol]
    rcases Nat.lt_succ_iff_lt_or_eq.mp hk with hkj | hkj
    · have hne : j ≠ k := fun hjk => hkj.ne' (congrArg Fin.val hjk)
      rw [if_neg hne]
      apply h.diagonal_pos k hkj
    · obtain rfl := Fin.ext hkj
      rw [if_pos rfl, column_self]
      apply sqrt_pos hpos
  · intro i k hki hk
    rcases Nat.lt_succ_iff_lt_or_eq.mp hk with hkj | hkj
    · have hkj' : k < j := hkj
      have hc : column a l j (sqrt (pivot a l j)) k = 0 := by
        rw [get_column, if_pos hkj']
      rw [sum_setCol_of_zero hc (h.above k j hkj')]
      apply h.product i k hki hkj
    · obtain rfl := Fin.ext hkj
      rw [sum_setCol_self (h.above k), column_mul_column_self hki hpos, sub_add_cancel]

theorem partial_steps (hb : 0 ≤ bound) {k : Nat} {hk : k ≤ n} (h : steps a bound k hk = .ok l) :
  Partial a k l
  := by
  apply steps_induction (fun _ => rfl) (fun _ _ => rfl) (partial_zero a) _ k hk l h
  intro j l l' hl hstep
  apply hl.step hb hstep

/-! ### Factors -/

/-- The factor is lower triangular with a positive diagonal, and the matrix `a` is its product with
its transpose. -/
structure Factors (a : Mat α n n) (c : Cholesky α n) : Prop where
  above : ∀ i j, i < j → c.lower i j = 0
  diagonal_pos : ∀ i, 0 < c.lower i i
  product : c.lower * c.lower.transpose = a

/-- What is found for a symmetric matrix is a factor. -/
theorem factor_factors {c : Cholesky α n} (ha : a.transpose = a) (h : factor a = .ok c) :
  c.Factors a
  := by
  have hc : Partial a n c.lower := partial_steps (floor_nonneg a) (factor_eq_ok_iff.mp h)
  have hbelow : ∀ i j, j ≤ i → (c.lower * c.lower.transpose) i j = a i j := by
    intro i j hij
    rw [← hc.product i j hij j.isLt, Mat.get_product, foldl_add, zero_add]
    simp only [Mat.get_transpose]
  constructor
  · exact hc.above
  · intro i
    apply hc.diagonal_pos i i.isLt
  · ext i j
    rcases le_total j i with hij | hij
    · apply hbelow i j hij
    · have hgram : (c.lower * c.lower.transpose).transpose = c.lower * c.lower.transpose := by
        rw [Mat.transpose_mul, Mat.transpose_transpose]
      rw [← hgram, ← ha, Mat.get_transpose, Mat.get_transpose, hbelow j i hij]

namespace Factors

variable {c : Cholesky α n}

theorem lowerPart_eq (h : c.Factors a) :
  c.lower.lowerPart = c.lower
  := by
  ext i j
  rw [Mat.get_lowerPart]
  split
  case isTrue => rfl
  case isFalse hij => rw [h.above i j (not_le.mp hij)]

theorem upperPart_eq (h : c.Factors a) :
  c.lower.transpose.upperPart = c.lower.transpose
  := by
  ext i j
  rw [Mat.get_upperPart, Mat.get_transpose]
  split
  case isTrue => rfl
  case isFalse hij => rw [h.above j i (not_le.mp hij)]

theorem det_lower (h : c.Factors a) :
  c.lower.toMatrix.det = ∏ i, c.lower i i
  := by
  rw [← det_lowerPart, h.lowerPart_eq]

theorem diagonal_ne_zero (h : c.Factors a) (i : Fin n) :
  c.lower i i ≠ 0
  := (h.diagonal_pos i).ne'

/-- The solution for the factor is one for the matrix. -/
theorem mulVec_solve (h : c.Factors a) (b : Vec α n) :
  a.mulVec (c.solve b) = b
  := by
  have hupper : ∀ i, c.lower.transpose i i ≠ 0 := by
    intro i
    rw [Mat.get_transpose]
    apply h.diagonal_ne_zero
  have hback := mulVec_solveUpper hupper (solveLower c.lower b)
  have hforward := mulVec_solveLower h.diagonal_ne_zero b
  rw [h.upperPart_eq] at hback
  rw [h.lowerPart_eq] at hforward
  rw [← h.product, Mat.mul_mulVec, solve, hback, hforward]

theorem mul_inverse (h : c.Factors a) :
  a * c.inverse = Mat.identity
  := Mat.mul_ofCols_axis h.mulVec_solve

theorem inverse_mul (h : c.Factors a) :
  c.inverse * a = Mat.identity
  := Mat.mul_eq_identity_comm.mp h.mul_inverse

theorem det_eq (h : c.Factors a) :
  c.det = a.toMatrix.det
  := by
  rw [← h.product, Mat.toMatrix_mul, Mat.toMatrix_transpose, det_mul, det_transpose, h.det_lower,
    det, foldl_mul, one_mul]

/-- A matrix that is the product of an invertible factor and its transpose is positive definite. -/
theorem posDef (h : c.Factors a) :
  a.PosDef
  := by
  have hdet : c.lower.toMatrixᵀ.det ≠ 0 := by
    rw [det_transpose, h.det_lower]
    apply Finset.prod_ne_zero_iff.mpr
    intro i _
    apply h.diagonal_ne_zero
  have hcongruence := Mat.posDef_identity.congruence (k := c.lower) (by
    intro v hv
    rw [← Vec.toFun_inj, Mat.toFun_mulVec, Mat.toMatrix_transpose, Vec.toFun_zero] at hv
    rw [← Vec.toFun_inj, Vec.toFun_zero]
    apply eq_zero_of_mulVec_eq_zero hdet hv)
  rw [Mat.mul_identity, h.product] at hcongruence
  exact hcongruence

end Factors

/-- With exact scalars and roots the factorisation of a symmetric matrix either finds its factor,
and then the matrix is positive definite, and the solutions, the inverse and the determinant are
right, or reports that it is not; and it reports every symmetric matrix that is not. Whether or not
the matrix is symmetric, nothing above the diagonal matters. -/
theorem symmetric_factor_exact (a : Mat α n n) :
  (a.transpose = a →
      (∀ c, factor a = .ok c →
        c.Factors a
          ∧ a.PosDef
          ∧ (∀ b x, a.mulVec x = b ↔ x = c.solve b)
          ∧ a * c.inverse = Mat.identity
          ∧ c.inverse * a = Mat.identity
          ∧ c.det = a.toMatrix.det)
        ∧ (¬ a.PosDef → factor a = .error .notPositiveDefinite))
    ∧ ∀ a' : Mat α n n, (∀ i j, j ≤ i → a i j = a' i j) → factor a = factor a'
  := by
  constructor
  · intro ha
    constructor
    · intro c hc
      have h := factor_factors ha hc
      use h, h.posDef, Mat.mulVec_eq_iff h.mulVec_solve, h.mul_inverse, h.inverse_mul, h.det_eq
    · intro hdef
      cases hc : factor a with
      | ok c => exact absurd (factor_factors ha hc).posDef hdef
      | error e => rw [factor_eq_error hc]
  · intro a' h
    apply factor_congr h

end

/-- A matrix that has a factor, one that is not positive definite, and one that agrees with the
first on and below the diagonal. -/
theorem symmetric_factor_exact_two :
  (∃ c, factor (Mat.ofFn ![![4, 2], ![2, 2]] : Mat ℝ 2 2) = .ok c
      ∧ c.Factors (Mat.ofFn ![![4, 2], ![2, 2]])
      ∧ (Mat.ofFn ![![4, 2], ![2, 2]] : Mat ℝ 2 2).PosDef)
    ∧ factor (Mat.ofFn ![![1, 2], ![2, 1]] : Mat ℝ 2 2) = .error .notPositiveDefinite
    ∧ factor (Mat.ofFn ![![4, 2], ![2, 2]] : Mat ℝ 2 2) = factor (Mat.ofFn ![![4, 7], ![2, 2]])
  := by
  constructor
  · have hfloor : floor (Mat.ofFn ![![4, 2], ![2, 2]] : Mat ℝ 2 2) < 1 := by
      have hε : (epsilon : ℝ) = 1 / 2 ^ 52 := rfl
      rw [floor, hε]
      norm_num [Fin.foldl_succ_last, Fin.last]
    have hroot : sqrt (4 : ℝ) = 2 := by
      show Real.sqrt 4 = 2
      rw [Real.sqrt_eq_iff_mul_self_eq_of_pos two_pos]
      norm_num
    have hpivot : pivot (Mat.ofFn ![![4, 2], ![2, 2]] : Mat ℝ 2 2) 0 ⟨0, two_pos⟩ = 4 := by
      simp [pivot, foldBelow]
    have hfirst := steps_succ_eq_ok (k := 0) one_le_two rfl
      (hfloor.trans (by rw [hpivot]; norm_num))
    rw [hpivot, hroot] at hfirst
    have hsecond := steps_succ_eq_ok le_rfl hfirst (hfloor.trans_le (by
      simp [pivot, foldBelow, Mat.get_setCol, get_column, Fin.foldl_succ_last]
      norm_num))
    obtain ⟨c, hc⟩ : ∃ c, factor (Mat.ofFn ![![4, 2], ![2, 2]] : Mat ℝ 2 2) = .ok c :=
      ⟨⟨_⟩, factor_eq_ok_iff.mpr hsecond⟩
    have hsymm : (Mat.ofFn ![![4, 2], ![2, 2]] : Mat ℝ 2 2).transpose
        = Mat.ofFn ![![4, 2], ![2, 2]] := by
      ext i j
      fin_cases i <;> fin_cases j <;> simp
    obtain ⟨h, hdef, -⟩ := ((symmetric_factor_exact _).1 hsymm).1 c hc
    use c, hc, h, hdef.symmetric, hdef.form_pos
  constructor
  · apply ((symmetric_factor_exact _).1 _).2
    · intro h
      have hpos := h.form_pos (Vec.ofFn ![1, -1]) (by
        intro hzero
        have h0 := congrArg (fun v : Vec ℝ 2 => v 0) hzero
        simp at h0)
      norm_num [Mat.form_eq, Matrix.mulVec, dotProduct, Fin.sum_univ_two] at hpos
    · ext i j
      fin_cases i <;> fin_cases j <;> simp
  · apply (symmetric_factor_exact _).2
    intro i j hij
    fin_cases i <;> fin_cases j <;> simp at hij ⊢

end Numerics.Linear.Cholesky
