import Numerics.Proofs.Linear.Pivoting
import Numerics.Proofs.Linear.Triangular
import Numerics.Proofs.Mat.Inverse
import Numerics.Proofs.Mat.Size

/-!
# Elimination in exact arithmetic

With exact scalars a factorisation is one. Along the way the rows of the matrix, in the recorded
order, are the product of the `multipliers` of the columns that are eliminated and of the matrix
`remaining`, which is zero below the diagonal in these columns; this is the invariant `Eliminated`.
An exchange permutes the rows of both factors, and an elimination moves a matrix of rank one from
one factor into the other.
-/

namespace Numerics.Linear.LU

open Matrix

variable {α : Type} [ExactScalar α] {n : Nat}

/-! ### Partial factors -/

/-- The multipliers of the first `k` columns, below a diagonal of ones. -/
def multipliers (p : Mat α n n) (k : Nat) : Matrix (Fin n) (Fin n) α :=
  Matrix.of fun i j => if j = i then 1 else if j < i ∧ j.val < k then p i j else 0

/-- What the first `k` columns leave: zeros below the diagonal there, and the other entries. -/
def remaining (p : Mat α n n) (k : Nat) : Matrix (Fin n) (Fin n) α :=
  Matrix.of fun i j => if j < i ∧ j.val < k then 0 else p i j

theorem multipliers_zero (p : Mat α n n) :
  multipliers p 0 = 1
  := by
  ext i j
  simp [multipliers, Matrix.one_apply, eq_comm]

theorem remaining_zero (p : Mat α n n) :
  remaining p 0 = p.toMatrix
  := by
  ext i j
  simp [remaining]

theorem multipliers_all (p : Mat α n n) :
  multipliers p n = p.unitLowerPart.toMatrix
  := by
  ext i j
  rw [multipliers, Matrix.of_apply, Mat.toMatrix_apply, Mat.get_unitLowerPart]
  grind

theorem remaining_all (p : Mat α n n) :
  remaining p n = p.upperPart.toMatrix
  := by
  ext i j
  rw [remaining, Matrix.of_apply, Mat.toMatrix_apply, Mat.get_upperPart]
  grind

/-- After `k` columns the rows of `a`, in the order of `s`, are the product of the partial factors;
no multiplier exceeds one, and every pivot exceeds `t`. -/
structure Eliminated (a : Mat α n n) (t : α) (k : Nat) (s : LU α n) : Prop where
  product : a.toMatrix.submatrix s.perm id = multipliers s.packed k * remaining s.packed k
  bounded : ∀ i j, j < i → j.val < k → |s.packed i j| ≤ 1
  pivots : ∀ j, j.val < k → t < |s.packed j j|

theorem eliminated_start (a : Mat α n n) (t : α) :
  Eliminated a t 0 (start a)
  := by
  constructor
  · rw [multipliers_zero, remaining_zero, one_mul]
    ext i j
    simp [start]
  · intro i j _ hj
    exact absurd hj (Nat.not_lt_zero _)
  · intro j hj
    exact absurd hj (Nat.not_lt_zero _)

/-! ### Exchanges -/

theorem swap_of_lt {k p j : Fin n} (hp : k ≤ p) (hj : j < k) :
  Equiv.swap k p j = j
  := Equiv.swap_apply_of_ne_of_ne hj.ne (hj.trans_le hp).ne

theorem le_swap {k p j : Fin n} (hp : k ≤ p) (hj : k ≤ j) :
  k ≤ Equiv.swap k p j
  := by
  rw [Equiv.swap_apply_def]
  split_ifs
  · exact hp
  · exact le_rfl
  · exact hj

theorem lt_swap_iff {k p j : Fin n} (hp : k ≤ p) (hj : j < k) (i : Fin n) :
  j < Equiv.swap k p i ↔ j < i
  := by
  rcases lt_or_ge i k with hi | hi
  · rw [swap_of_lt hp hi]
  · simp only [hj.trans_le hi, hj.trans_le (le_swap hp hi)]

theorem multipliers_exchange (s : LU α n) {k p : Fin n} (hp : k ≤ p) :
  multipliers (s.exchange k p).packed k
    = (multipliers s.packed k).submatrix (Equiv.swap k p) (Equiv.swap k p)
  := by
  ext i j
  simp only [multipliers, Matrix.of_apply, Matrix.submatrix_apply, exchange_packed,
    EmbeddingLike.apply_eq_iff_eq]
  rcases lt_or_ge j k with hj | hj
  · simp only [swap_of_lt hp hj, lt_swap_iff hp hj]
  · simp [hj.not_gt, (le_swap hp hj).not_gt]

theorem remaining_exchange (s : LU α n) {k p : Fin n} (hp : k ≤ p) :
  remaining (s.exchange k p).packed k = (remaining s.packed k).submatrix (Equiv.swap k p) id
  := by
  ext i j
  simp only [remaining, Matrix.of_apply, Matrix.submatrix_apply, exchange_packed, id]
  rcases lt_or_ge j k with hj | hj
  · simp only [lt_swap_iff hp hj]
  · simp [hj.not_gt]

theorem Eliminated.exchange {a : Mat α n n} {t : α} {s : LU α n} {k p : Fin n}
    (h : Eliminated a t k s) (hp : k ≤ p) :
  Eliminated a t k (s.exchange k p)
  := by
  constructor
  · rw [multipliers_exchange s hp, remaining_exchange s hp, Matrix.submatrix_mul_equiv, ← h.product]
    ext i j
    simp
  · intro i j hij hj
    rw [exchange_packed]
    apply h.bounded _ _ ((lt_swap_iff hp hj i).mpr hij) hj
  · intro j hj
    rw [exchange_packed, swap_of_lt hp hj]
    apply h.pivots j hj

/-! ### Elimination -/

/-- The multiples of the row `k` that are subtracted from the rows below. -/
def multiples (p : Mat α n n) (k : Fin n) : Fin n → α :=
  fun i => if k < i then p i k / p k k else 0

theorem multipliers_mulVec_multiples (p : Mat α n n) (k : Fin n) :
  multipliers p k *ᵥ multiples p k = multiples p k
  := by
  funext i
  rw [mulVec_eq_sum, Finset.sum_apply, Finset.sum_eq_single i]
  · simp [multipliers]
  · intro j _ hji
    by_cases hj : k < j
    · simp [multipliers, hji, hj.not_gt]
    · simp [multiples, hj]
  · simp

/-- Eliminating a column adds its multiples to the multipliers. -/
theorem multipliers_eliminate (p : Mat α n n) (k : Fin n) :
  multipliers (eliminate p k) (k.val + 1)
    = multipliers p k + vecMulVec (multiples p k) (Pi.single k 1)
  := by
  ext i j
  simp only [multipliers, multiples, Matrix.add_apply, Matrix.of_apply, vecMulVec_apply,
    get_eliminate, Pi.single_apply]
  grind

/-- Eliminating a column subtracts the multiples of its row. -/
theorem remaining_eliminate (p : Mat α n n) {k : Fin n} (hk : p k k ≠ 0) :
  remaining p k
    = remaining (eliminate p k) (k.val + 1)
      + vecMulVec (multiples p k) (remaining (eliminate p k) (k.val + 1) k)
  := by
  ext i j
  have hcancel : p i k / p k k * p k k = p i k := div_mul_cancel₀ _ hk
  simp only [remaining, multiples, Matrix.add_apply, Matrix.of_apply, vecMulVec_apply,
    get_eliminate]
  grind

/-- Elimination keeps the product of the partial factors. -/
theorem multipliers_mul_remaining_eliminate (p : Mat α n n) {k : Fin n} (hk : p k k ≠ 0) :
  multipliers (eliminate p k) (k.val + 1) * remaining (eliminate p k) (k.val + 1)
    = multipliers p k * remaining p k
  := by
  rw [multipliers_eliminate, remaining_eliminate p hk, Matrix.add_mul, Matrix.mul_add,
    vecMulVec_mul, single_one_vecMul, mul_vecMulVec, multipliers_mulVec_multiples]
  rfl

theorem Eliminated.eliminate {a : Mat α n n} {t : α} {s : LU α n} {k : Fin n}
    (h : Eliminated a t k s) (ht : 0 ≤ t) (hpivot : t < |s.packed k k|)
    (hmax : ∀ i, k ≤ i → |s.packed i k| ≤ |s.packed k k|) :
  Eliminated a t (k.val + 1) { s with packed := LU.eliminate s.packed k }
  := by
  have hpos : 0 < |s.packed k k| := ht.trans_lt hpivot
  have hk : s.packed k k ≠ 0 := abs_pos.mp hpos
  constructor
  · rw [multipliers_mul_remaining_eliminate _ hk]
    exact h.product
  · intro i j hij hj
    rw [get_eliminate]
    rcases Nat.lt_succ_iff_lt_or_eq.mp hj with hjk | hjk
    · have hkj : ¬ k < j := Nat.lt_asymm hjk
      have hne : j ≠ k := fun hjk' => hjk.ne (congrArg Fin.val hjk')
      simp only [hkj, hne, if_false, ite_self]
      apply h.bounded i j hij hjk
    · obtain rfl := Fin.ext hjk
      rw [if_pos hij, if_neg (lt_irrefl _), if_pos rfl, abs_div, div_le_one hpos]
      apply hmax i hij.le
  · intro j hj
    have hkj : ¬ k < j := Nat.not_lt.mpr (Nat.lt_succ_iff.mp hj)
    rw [get_eliminate, if_neg hkj]
    rcases Nat.lt_succ_iff_lt_or_eq.mp hj with hjk | hjk
    · apply h.pivots j hjk
    · obtain rfl := Fin.ext hjk
      exact hpivot

/-- No entry on or below the diagonal is larger than the pivot. -/
theorem abs_le_pivotRow (a : Mat α n n) {k i : Fin n} (hi : k ≤ i) :
  |a i k| ≤ |a (pivotRow a k) k|
  := by
  have h : ∀ i : Fin n, k ≤ i → i.val < n → |a i k| ≤ |a (pivotRow a k) k| := by
    apply foldAbove_induction (P := fun r p => ∀ i : Fin n, k ≤ i → i.val < r → |a i k| ≤ |a p k|)
    · intro i hki hi
      rw [le_antisymm hki (Nat.lt_succ_iff.mp hi)]
    · intro r p _ hp i hki hi
      rw [abs_eq, abs_eq]
      rcases Nat.lt_succ_iff_lt_or_eq.mp hi with hir | hir
      · split
        case isTrue hlt => apply (hp i hki hir).trans hlt.le
        case isFalse => apply hp i hki hir
      · obtain rfl := Fin.ext hir
        split
        case isTrue => exact le_rfl
        case isFalse hlt => apply not_lt.mp hlt
  apply h i hi i.isLt

/-- A step keeps the invariant. -/
theorem Eliminated.step {a : Mat α n n} {t : α} {s s' : LU α n} {k : Fin n}
    (h : Eliminated a t k s) (ht : 0 ≤ t) (hs : LU.step t s k = .ok s') :
  Eliminated a t (k.val + 1) s'
  := by
  obtain ⟨hpivot, rfl⟩ := step_eq_ok hs
  have hp := le_pivotRow s.packed k
  apply (h.exchange hp).eliminate ht
  · rw [exchange_packed, Equiv.swap_apply_left]
    rw [abs_eq] at hpivot
    apply not_le.mp hpivot
  · intro i hi
    rw [exchange_packed, exchange_packed, Equiv.swap_apply_left]
    apply abs_le_pivotRow _ (le_swap hp hi)

/-! ### Factorisations -/

/-- The lower factor, with ones on its diagonal. -/
def lower (s : LU α n) : Mat α n n :=
  s.packed.unitLowerPart

/-- The upper factor. -/
def upper (s : LU α n) : Mat α n n :=
  s.packed.upperPart

/-- The rows of `a`, in a recorded order of the recorded parity, are the product of the factors of
`s`; no entry of the lower factor exceeds one, and the diagonal of the upper factor exceeds the
precision times every entry of `a`. -/
structure Factors (a : Mat α n n) (s : LU α n) : Prop where
  permutes : ∃ σ, s.Permutes σ
  product : (Mat.ofRows fun i => a.row (s.perm i)) = s.lower * s.upper
  lower_le : ∀ i j, |s.lower i j| ≤ 1
  lt_upper : ∀ k i j, epsilon * |a i j| < |s.upper k k|

theorem threshold_nonneg (a : Mat α n n) :
  0 ≤ threshold a
  := mul_nonneg epsilon_pos.le a.maxAbs_nonneg

/-- The invariant holds after any number of steps. -/
theorem eliminated_steps {a : Mat α n n} {k : Nat} {hk : k ≤ n} {s : LU α n}
    (h : steps (threshold a) (start a) k hk = .ok s) :
  Eliminated a (threshold a) k s
  := by
  apply steps_induction (fun _ => rfl) (fun _ _ => rfl) (eliminated_start a _) _ k hk s h
  intro k u u' hu hstep
  apply hu.step (threshold_nonneg a) hstep

/-- What elimination finds is a factorisation. -/
theorem factor_factors {a : Mat α n n} {s : LU α n} (h : factor a = .ok s) :
  s.Factors a
  := by
  have hs : Eliminated a (threshold a) n s := eliminated_steps h
  constructor
  · apply factor_permutes h
  · rw [← Mat.toMatrix_inj, Mat.toMatrix_mul, lower, upper, ← multipliers_all, ← remaining_all,
      ← hs.product, Mat.toMatrix_ofRows_row]
  · intro i j
    rw [lower, Mat.get_unitLowerPart]
    split_ifs with hji
    · apply hs.bounded i j hji j.isLt
    · rw [abs_one]
    · rw [abs_zero]
      apply zero_le_one
  · intro k i j
    rw [upper, Mat.get_upperPart, if_pos le_rfl]
    apply lt_of_le_of_lt _ (hs.pivots k k.isLt)
    apply mul_le_mul_of_nonneg_left (a.abs_le_maxAbs i j) epsilon_pos.le

namespace Factors

variable {a : Mat α n n} {s : LU α n}

theorem pivot_ne_zero (h : s.Factors a) (k : Fin n) :
  s.packed k k ≠ 0
  := by
  have hk := h.lt_upper k k k
  rw [upper, Mat.get_upperPart, if_pos le_rfl] at hk
  apply abs_pos.mp
  apply lt_of_le_of_lt _ hk
  apply mul_nonneg epsilon_pos.le (abs_nonneg _)

/-- The solution for the factors is one for the matrix. -/
theorem mulVec_solve (h : s.Factors a) (b : Vec α n) :
  a.mulVec (s.solve b) = b
  := by
  obtain ⟨σ, hσ, -⟩ := h.permutes
  have hrows : (Mat.ofRows fun i => a.row (s.perm i)).mulVec (s.solve b)
      = Vec.ofFn fun i => b (s.perm i) := by
    rw [h.product, Mat.mul_mulVec, solve, upper, mulVec_solveUpper h.pivot_ne_zero, lower,
      mulVec_solveUnitLower]
  ext i
  have hi := congrArg (fun v : Vec α n => v (σ.symm i)) hrows
  rw [Mat.get_mulVec, Vec.get_ofFn, hσ, Equiv.apply_symm_apply] at hi
  rw [Mat.get_mulVec, ← hi]
  simp only [Mat.get_ofRows, hσ, Equiv.apply_symm_apply]
  rfl

/-- The determinant of the matrix is the product of the pivots and the sign of the permutation. -/
theorem det_eq (h : s.Factors a) :
  s.det = a.toMatrix.det
  := by
  obtain ⟨σ, hσ, hsign⟩ := h.permutes
  have hrows : (Mat.ofRows fun i => a.row (s.perm i)).toMatrix = a.toMatrix.submatrix σ id := by
    rw [Mat.toMatrix_ofRows_row, funext hσ]
  have hdet : (Equiv.Perm.sign σ : α) * a.toMatrix.det = ∏ i, s.packed i i := by
    rw [← det_permute, ← hrows, h.product, Mat.toMatrix_mul, det_mul, lower, upper,
      det_unitLowerPart, det_upperPart, one_mul]
  rw [det, foldl_mul, ← hdet, hsign, ← mul_assoc]
  cases s.even
  · simp
  · simp

theorem det_ne_zero (h : s.Factors a) :
  a.toMatrix.det ≠ 0
  := by
  rw [← h.det_eq, det, foldl_mul]
  apply mul_ne_zero
  · split
    · apply one_ne_zero
    · apply neg_ne_zero.mpr one_ne_zero
  · apply Finset.prod_ne_zero_iff.mpr
    intro k _
    apply h.pivot_ne_zero

theorem mul_inverse (h : s.Factors a) :
  a * s.inverse = Mat.identity
  := Mat.mul_ofCols_axis h.mulVec_solve

theorem inverse_mul (h : s.Factors a) :
  s.inverse * a = Mat.identity
  := Mat.mul_eq_identity_comm.mp h.mul_inverse

end Factors

/-- The inverse that elimination finds is one on both sides. -/
theorem inverse_eq_ok {a b : Mat α n n} (h : a.inverse = .ok b) :
  a * b = Mat.identity ∧ b * a = Mat.identity
  := by
  obtain ⟨s, hs, hb⟩ := bind_eq_ok.mp h
  obtain rfl := Except.ok.inj hb
  use (factor_factors hs).mul_inverse, (factor_factors hs).inverse_mul

/-- With exact scalars elimination either factors a matrix, and then its solutions, its inverse and
its determinant are right, or reports it as singular; and it reports every matrix whose determinant
is zero. -/
theorem elimination_exact (a : Mat α n n) :
  (∀ s, factor a = .ok s →
      s.Factors a
        ∧ (∀ b x, a.mulVec x = b ↔ x = s.solve b)
        ∧ a * s.inverse = Mat.identity
        ∧ s.inverse * a = Mat.identity
        ∧ s.det = a.toMatrix.det)
    ∧ (a.toMatrix.det = 0 → factor a = .error .singular ∧ a.det = 0)
  := by
  constructor
  · intro s hs
    have h := factor_factors hs
    use h, Mat.mulVec_eq_iff h.mulVec_solve, h.mul_inverse, h.inverse_mul, h.det_eq
  · intro hdet
    cases hs : factor a with
    | ok s => exact absurd hdet (factor_factors hs).det_ne_zero
    | error e =>
      obtain rfl := factor_eq_error hs
      use rfl
      rw [Mat.det, hs]

/-- A matrix whose first and second pivots are found by exchanges, and one with dependent rows. -/
theorem elimination_exact_exchanges :
  (∃ s, factor (Mat.ofFn !![0, 2, 1; 1, 1, 0; 2, 0, 3] : Mat ℚ 3 3) = .ok s
      ∧ s.Factors (Mat.ofFn !![0, 2, 1; 1, 1, 0; 2, 0, 3])
      ∧ s.det = (Mat.ofFn !![0, 2, 1; 1, 1, 0; 2, 0, 3] : Mat ℚ 3 3).toMatrix.det)
    ∧ factor (Mat.ofFn !![1, 2, 3; 2, 4, 6; 1, 0, 1] : Mat ℚ 3 3) = .error .singular
  := by
  constructor
  · have hok : (factor (Mat.ofFn !![0, 2, 1; 1, 1, 0; 2, 0, 3] : Mat ℚ 3 3)).isOk = true := by
      decide +kernel
    obtain ⟨s, hs⟩ := exists_of_isOk hok
    obtain ⟨h, -, -, -, hdet⟩ := (elimination_exact _).1 s hs
    use s, hs, h, hdet
  · apply ((elimination_exact _).2 _).1
    decide +kernel

end Numerics.Linear.LU
