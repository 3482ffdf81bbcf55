import Mathlib.Algebra.Order.Field.Basic
import Numerics.Proofs.Linear.Elimination
import Numerics.Proofs.Mat.Positive

/-!
# When elimination succeeds

Elimination fails at a column whose entries on and below the diagonal all are negligible beside the
largest entry of the matrix, `Fades`. With exact scalars these entries are the image of a vector
whose entry at the column is one, so a matrix that is refused nearly has a vector in its kernel: it
maps some vector to one that is as small beside it as rounding is beside the largest entry. A matrix
without such vectors is `Resolved`, and elimination factors it.

Whether a matrix is resolved is a matter of the sizes of its entries relative to each other. A
positive definite matrix has an inverse, and yet it need not be resolved.
-/

namespace Numerics

open Matrix

variable {α : Type} [ExactScalar α] {n : Nat}

/-- The image under `a` of a vector that is not zero is never as small beside the vector as the
precision is, beside one, in units of the largest entry of `a`. -/
def Mat.Resolved (a : Mat α n n) : Prop :=
  ∀ v : Vec α n, v ≠ 0 → epsilon * a.maxAbs * v.maxAbs < (a.mulVec v).maxAbs

/-- A number in a matrix of one entry is not negligible beside itself. -/
theorem Mat.resolved_of_le_one {a : Mat α n n} (ha : ∀ v, v ≠ 0 → a.mulVec v ≠ 0) (hn : n ≤ 1)
    (hε : (epsilon : α) < 1) :
  a.Resolved
  := by
  intro v hv
  obtain ⟨i, hi⟩ := Vec.exists_ne_zero (ha v hv)
  have hsubsingleton : Subsingleton (Fin n) := Fin.subsingleton_iff_le_one.mpr hn
  have himage : a.mulVec v i = a i i * v i := by
    rw [get_mulVec, foldl_add, zero_add]
    apply Fintype.sum_subsingleton
  have hpos : 0 < |a i i| * |v i| := by
    rw [← abs_mul, ← himage, abs_pos]
    exact hi
  have hentry : a.maxAbs ≤ |a i i| := by
    rw [maxAbs_le_iff]
    use abs_nonneg _
    intro j k
    rw [Subsingleton.elim j i, Subsingleton.elim k i]
  have hsize : v.maxAbs ≤ |v i| := by
    rw [Vec.maxAbs_le_iff]
    use abs_nonneg _
    intro j
    rw [Subsingleton.elim j i]
  calc epsilon * a.maxAbs * v.maxAbs
    _ = epsilon * (a.maxAbs * v.maxAbs) := by ring
    _ ≤ epsilon * (|a i i| * |v i|) := by
      apply mul_le_mul_of_nonneg_left _ epsilon_pos.le
      apply mul_le_mul hentry hsize v.maxAbs_nonneg (abs_nonneg _)
    _ < |a i i| * |v i| := mul_lt_of_lt_one_left hpos hε
    _ = |a.mulVec v i| := by rw [himage, abs_mul]
    _ ≤ (a.mulVec v).maxAbs := Vec.abs_le_maxAbs _ i

theorem Mat.PosDef.resolved_of_le_one {a : Mat α n n} (ha : a.PosDef) (hn : n ≤ 1)
    (hε : (epsilon : α) < 1) :
  a.Resolved
  := by
  apply Mat.resolved_of_le_one _ hn hε
  intro v hv hzero
  have hform := ha.form_pos v hv
  rw [form, hzero, Vec.dot_zero] at hform
  exact lt_irrefl _ hform

namespace Linear.LU

/-! ### Pivots -/

/-- Elimination comes to the column `k` of `a` and finds no entry there on or below the diagonal
that exceeds the precision times the largest entry of `a`. -/
def Fades (a : Mat α n n) (k : Fin n) : Prop :=
  ∃ s, steps (threshold a) (start a) k.val (Nat.le_of_lt k.isLt) = .ok s
    ∧ ∀ i, k ≤ i → |s.packed i k| ≤ epsilon * a.maxAbs

theorem abs_pivotRow_le_iff (p : Mat α n n) (k : Fin n) (t : α) :
  |p (pivotRow p k) k| ≤ t ↔ ∀ i, k ≤ i → |p i k| ≤ t
  := by
  constructor
  · intro h i hi
    apply (abs_le_pivotRow p hi).trans h
  · intro h
    apply h _ (le_pivotRow p k)

theorem step_eq_error_iff {t : α} {s : LU α n} {k : Fin n} :
  step t s k = .error .singular ↔ ∀ i, k ≤ i → |s.packed i k| ≤ t
  := by
  rw [← abs_pivotRow_le_iff, step_eq, abs_eq]
  split
  case isTrue h => simp [h]
  case isFalse h => simp [h]

/-- Elimination fails at a column that fades, and nowhere else. -/
theorem factor_eq_error_iff (a : Mat α n n) :
  factor a = .error .singular ↔ ∃ k, Fades a k
  := by
  rw [factor, steps_eq_error_iff (fun _ => rfl) (fun _ _ => rfl)]
  constructor
  · rintro ⟨k, -, s, hs, hstep⟩
    use k, s, hs, step_eq_error_iff.mp hstep
  · rintro ⟨k, s, hs, hsmall⟩
    use k, k.isLt, s, hs, step_eq_error_iff.mpr hsmall

/-! ### Images -/

/-- The entries of the column `k` on and below the diagonal, with zeros above them. -/
def reduced (p : Mat α n n) (k : Fin n) : Fin n → α :=
  fun i => if k ≤ i then p i k else 0

/-- The matrix that is left maps a vector that cancels its first `k` columns to what is left of the
column `k`. -/
theorem remaining_mulVec_cancelling (p : Mat α n n) {k : Fin n} {v : Vec α n} (hv : v.Monic k)
    (hcancel : ∀ i, i < k → p.upperPart.mulVec v i = 0) :
  remaining p k *ᵥ v.toFun = reduced p k
  := by
  funext i
  rw [reduced, mulVec, dotProduct]
  split
  case isTrue hi =>
    rw [Finset.sum_eq_single k]
    · rw [remaining, Matrix.of_apply, if_neg (fun h => lt_irrefl _ h.2), Vec.toFun_apply, hv.eq_one,
        mul_one]
    · intro j _ hj
      rcases lt_or_gt_of_ne hj with hj | hj
      · rw [remaining, Matrix.of_apply, if_pos ⟨hj.trans_le hi, hj⟩, zero_mul]
      · rw [Vec.toFun_apply, hv.eq_zero j hj, mul_zero]
    · simp
  case isFalse hi =>
    have hik := not_le.mp hi
    rw [← hcancel i hik, ← Vec.toFun_apply, Mat.toFun_mulVec, mulVec, dotProduct]
    apply Finset.sum_congr rfl
    intro j _
    rw [remaining, Matrix.of_apply, Mat.toMatrix_apply, Mat.get_upperPart]
    by_cases hji : j < i
    · rw [if_pos ⟨hji, hji.trans hik⟩, if_neg hji.not_ge]
    · rw [if_neg (fun h => hji h.1), if_pos (not_lt.mp hji)]

/-- The multipliers leave what is zero above the diagonal of the column `k` alone. -/
theorem multipliers_mulVec_reduced (p : Mat α n n) (k : Fin n) :
  multipliers p k *ᵥ reduced p k = reduced p k
  := by
  funext i
  rw [mulVec, dotProduct, Finset.sum_eq_single i]
  · rw [multipliers, Matrix.of_apply, if_pos rfl, one_mul]
  · intro j _ hj
    rcases lt_or_ge j k with hjk | hjk
    · rw [reduced, if_neg hjk.not_ge, mul_zero]
    · rw [multipliers, Matrix.of_apply, if_neg hj, if_neg (fun h => hjk.not_gt h.2), zero_mul]
  · simp

/-- What is left of the column `k` is the image of a vector whose entry at `k` is one. -/
theorem exists_mulVec_eq_reduced {a : Mat α n n} {k : Fin n} {s : LU α n}
    (h : steps (threshold a) (start a) k.val (Nat.le_of_lt k.isLt) = .ok s) :
  ∃ v : Vec α n, v.Monic k ∧ ∀ i, a.mulVec v (s.perm i) = reduced s.packed k i
  := by
  have hs := eliminated_steps h
  have hdiagonal : ∀ i, i < k → s.packed i i ≠ 0 := by
    intro i hi
    apply abs_pos.mp ((threshold_nonneg a).trans_lt (hs.pivots i hi))
  obtain ⟨v, hv, hcancel⟩ := exists_cancelling s.packed k hdiagonal
  use v, hv
  intro i
  have hrows : a.toMatrix.submatrix s.perm id *ᵥ v.toFun = reduced s.packed k := by
    rw [hs.product, ← mulVec_mulVec, remaining_mulVec_cancelling s.packed hv hcancel,
      multipliers_mulVec_reduced]
  rw [← congrFun hrows i, ← Vec.toFun_apply, Mat.toFun_mulVec]
  rfl

/-- A matrix with a column that fades maps some vector to a negligible one. -/
theorem Fades.exists_mulVec_le {a : Mat α n n} {k : Fin n} (h : Fades a k) :
  ∃ v : Vec α n, v ≠ 0 ∧ (a.mulVec v).maxAbs ≤ epsilon * a.maxAbs * v.maxAbs
  := by
  obtain ⟨s, hs, hsmall⟩ := h
  obtain ⟨v, hv, himage⟩ := exists_mulVec_eq_reduced hs
  obtain ⟨σ, hσ, -⟩ := permutes_steps hs
  have hone : 1 ≤ v.maxAbs := by
    rw [← abs_one (α := α), ← hv.eq_one]
    apply v.abs_le_maxAbs
  have hle : epsilon * a.maxAbs ≤ epsilon * a.maxAbs * v.maxAbs :=
    le_mul_of_one_le_right (threshold_nonneg a) hone
  use v
  constructor
  · rintro rfl
    have hzero := hv.eq_one
    rw [Vec.get_zero] at hzero
    exact zero_ne_one hzero
  · rw [Vec.maxAbs_le_iff]
    use (threshold_nonneg a).trans hle
    intro i
    have hi := himage (σ.symm i)
    rw [hσ, Equiv.apply_symm_apply] at hi
    rw [hi, reduced]
    split
    case isTrue hki => exact (hsmall _ hki).trans hle
    case isFalse =>
      rw [abs_zero]
      exact (threshold_nonneg a).trans hle

/-- Elimination factors a resolved matrix. -/
theorem exists_factor_of_resolved {a : Mat α n n} (h : a.Resolved) :
  ∃ s, factor a = .ok s
  := by
  cases hs : factor a with
  | ok s => use s
  | error e =>
    obtain rfl := factor_eq_error hs
    obtain ⟨k, hk⟩ := (factor_eq_error_iff a).mp hs
    obtain ⟨v, hv, hle⟩ := hk.exists_mulVec_le
    exact absurd (h v hv) hle.not_gt

end Linear.LU

end Numerics
