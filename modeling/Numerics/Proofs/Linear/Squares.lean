import Mathlib.Algebra.Order.Field.Basic
import Numerics.Proofs.Linear.Symmetric

/-!
# When a symmetric factorisation succeeds

The columns of the factor before the index `j` complete squares: on vectors that are zero after `j`
the form of the matrix is a sum of squares and the pivot at `j` times the square of the entry there.
The squares all vanish at some vector with the entry one, so the pivot is the least value of the
form on the vectors that are `Vec.Monic` at `j`. Hence a symmetric matrix is factored exactly if its
form exceeds the floor on all such vectors.
-/

namespace Numerics

open Matrix

namespace Linear.Cholesky

variable {α : Type} [ExactReal α] {n : Nat} {a l : Mat α n n} {j : Fin n} {v : Vec α n}

/-! ### Completed squares -/

theorem pivot_eq (a l : Mat α n n) (j : Fin n) :
  pivot a l j = a j j - ∑ m ∈ Finset.Iio j, l j m * l j m
  := foldBelow_sub j _ _

/-- What the columns before `j` leave of the matrix, up to the row and the column `j`, is the pivot.
-/
theorem Partial.get_sub (h : Partial a j l) (ha : a.transpose = a) {i k : Fin n} (hi : i ≤ j)
    (hk : k ≤ j) :
  (a - l * l.transpose) i k = if i = j ∧ k = j then pivot a l j else 0
  := by
  have hproduct : (l * l.transpose) i k = ∑ m, l i m * l k m := by
    rw [Mat.get_product, foldl_add, zero_add]
    simp only [Mat.get_transpose]
  have hsymm : a i k = a k i := by
    rw [← ha, Mat.get_transpose, ha]
  rw [Mat.get_sub, hproduct]
  split
  case isTrue hij =>
    obtain ⟨rfl, rfl⟩ := hij
    have hself : l k k = 0 := h.after k k le_rfl
    rw [sum_eq_add_sum_Iio (i := k), hself, mul_zero, zero_add, pivot_eq]
    intro m hm
    rw [h.above k m hm, mul_zero]
  case isFalse hij =>
    rcases le_total k i with hki | hik
    · have hlt : k < j := lt_of_le_of_ne hk (by rintro rfl; exact hij ⟨le_antisymm hi hki, rfl⟩)
      rw [h.product i k hki hlt, sub_self]
    · have hlt : i < j := lt_of_le_of_ne hi (by rintro rfl; exact hij ⟨rfl, le_antisymm hk hik⟩)
      rw [hsymm, ← h.product k i hik hlt, sub_eq_zero]
      apply Finset.sum_congr rfl
      intro m _
      rw [mul_comm]

/-- On vectors that are zero after `j` the form is a sum of squares and a multiple of one more. -/
theorem Partial.form_eq (h : Partial a j l) (ha : a.transpose = a) (hv : ∀ i, j < i → v i = 0) :
  a.form v
    = (l.transpose.mulVec v).dot (l.transpose.mulVec v) + pivot a l j * v j ^ 2
  := by
  have hsplit : a = l * l.transpose + (a - l * l.transpose) := by
    ext i k
    rw [Mat.get_add, Mat.get_sub, add_sub_cancel]
  have hsquares : (l * l.transpose).form v
      = (l.transpose.mulVec v).dot (l.transpose.mulVec v) := by
    have hcongruence := Mat.form_congruence l Mat.identity v
    rw [Mat.mul_identity, Mat.form, Mat.form, Mat.identity_mulVec] at hcongruence
    exact hcongruence
  have hrow : ∀ i, i ≤ j → (a - l * l.transpose).mulVec v i
      = if i = j then pivot a l j * v j else 0 := by
    intro i hi
    rw [Mat.get_mulVec, foldl_add, zero_add, Finset.sum_eq_single j]
    · rw [h.get_sub ha hi le_rfl]
      simp only [and_true, ite_mul, zero_mul]
    · intro k _ hk
      rcases lt_or_gt_of_ne hk with hk | hk
      · rw [h.get_sub ha hi hk.le, if_neg (fun hij => hk.ne hij.2), zero_mul]
      · rw [hv k hk, mul_zero]
    · simp
  have hleft : (a - l * l.transpose).form v = pivot a l j * v j ^ 2 := by
    rw [Mat.form, Vec.dot_eq, dotProduct, Finset.sum_eq_single j]
    · rw [Vec.toFun_apply, Vec.toFun_apply, hrow j le_rfl, if_pos rfl]
      ring
    · intro i _ hi
      rw [Vec.toFun_apply, Vec.toFun_apply]
      rcases lt_or_gt_of_ne hi with hi | hi
      · rw [hrow i hi.le, if_neg hi.ne, mul_zero]
      · rw [hv i hi, zero_mul]
    · simp
  calc a.form v
    _ = (l * l.transpose + (a - l * l.transpose)).form v := by rw [← hsplit]
    _ = _ := by rw [Mat.form_add, hsquares, hleft]

/-! ### Pivots -/

/-- A pivot is a lower bound of the form. -/
theorem Partial.pivot_le_form (h : Partial a j l) (ha : a.transpose = a) (hv : v.Monic j) :
  pivot a l j ≤ a.form v
  := by
  rw [h.form_eq ha hv.eq_zero, hv.eq_one, one_pow, mul_one]
  apply le_add_of_nonneg_left (Vec.dot_self_nonneg _)

/-- A pivot is a value of the form. -/
theorem Partial.exists_form_eq_pivot (h : Partial a j l) (ha : a.transpose = a) :
  ∃ v : Vec α n, v.Monic j ∧ a.form v = pivot a l j
  := by
  have hdiagonal : ∀ i, i < j → l.transpose i i ≠ 0 := by
    intro i hi
    rw [Mat.get_transpose]
    exact (h.diagonal_pos i hi).ne'
  have hupper : l.transpose.upperPart = l.transpose := by
    ext i k
    rw [Mat.get_upperPart, Mat.get_transpose]
    split
    case isTrue => rfl
    case isFalse hik => rw [h.above k i (not_le.mp hik)]
  obtain ⟨v, hv, hcancel⟩ := exists_cancelling l.transpose j hdiagonal
  have hzero : l.transpose.mulVec v = 0 := by
    ext i
    rw [Vec.get_zero]
    rcases lt_or_ge i j with hi | hi
    · rw [← hcancel i hi, hupper]
    · rw [Mat.get_mulVec, foldl_add, zero_add]
      apply Finset.sum_eq_zero
      intro k _
      rw [Mat.get_transpose, h.after k i hi, zero_mul]
  use v, hv
  rw [h.form_eq ha hv.eq_zero, hzero, Vec.dot_zero, zero_add, hv.eq_one, one_pow, mul_one]

/-! ### Success -/

/-- A symmetric matrix is factored exactly if its form exceeds the floor on all vectors with a last
entry of one. -/
theorem exists_factor_iff (ha : a.transpose = a) :
  (∃ c, factor a = .ok c) ↔ ∀ j (v : Vec α n), v.Monic j → floor a < a.form v
  := by
  constructor
  · rintro ⟨c, hc⟩ j v hv
    obtain ⟨l, l', hl, hstep⟩ := steps_eq_ok (fun _ _ => rfl) n le_rfl (factor_eq_ok_iff.mp hc) j
      j.isLt
    apply (step_eq_ok hstep).1.trans_le
    apply (partial_steps (floor_nonneg a) hl).pivot_le_form ha hv
  · intro h
    cases hc : factor a with
    | ok c => use c
    | error e =>
      exfalso
      obtain hrun | ⟨l, -, hl⟩ := bind_eq_error.mp hc
      · obtain ⟨j, -, l, hl, hstep⟩ :=
          (steps_eq_error_iff (fun _ => rfl) (fun _ _ => rfl) n le_rfl).mp hrun
        obtain ⟨v, hv, hform⟩ := (partial_steps (floor_nonneg a) hl).exists_form_eq_pivot ha
        have hpivot := h j v hv
        rw [hform] at hpivot
        rw [step_eq, if_pos hpivot] at hstep
        cases hstep
      · cases hl

/-! ### The floor -/

/-- A scalar exceeds the floor exactly if it is not negligible beside any diagonal entry. -/
theorem floor_lt_iff {c : α} (j : Fin n) :
  floor a < c ↔ ∀ i, epsilon * |a i i| * n < c
  := by
  have hn : (0 : α) < n := Nat.cast_pos.mpr j.pos
  have hpos : (0 : α) < epsilon * n := mul_pos epsilon_pos hn
  have hscale : ∀ b : α, epsilon * b * n < c ↔ b < c / (epsilon * n) := by
    intro b
    rw [lt_div_iff₀ hpos, mul_right_comm, mul_comm]
  rw [floor, nat_eq, hscale]
  simp only [maxNum_eq, abs_eq, hscale]
  rw [foldl_max_lt_iff]
  constructor
  · intro h
    exact h.2
  · intro h
    exact ⟨(abs_nonneg _).trans_lt (h j), h⟩

end Linear.Cholesky

end Numerics
