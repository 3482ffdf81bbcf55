import Mathlib.Algebra.BigOperators.Fin
import Mathlib.Order.Interval.Finset.Fin
import Numerics.Index

/-!
# Folds as sums and bounds

In a commutative arithmetic the fold that adds `f i` for each index `i` adds their sum, and the one
that multiplies by `f i` multiplies by their product. The folds below and above an index `i` that
subtract terms subtract the sum over `Finset.Iio i` and over `Finset.Ioi i`, which with the term at
`i` is the whole sum if the terms on the other side vanish.

In a linear order the fold that takes the larger of its state and `f i` ends with the least upper
bound of the start and all `f i`.
-/

namespace Numerics

variable {α : Type} {n : Nat}

/-- A fold of steps that change nothing. -/
theorem foldl_eq_self {β : Type} {f : β → Fin n → β} (h : ∀ b i, f b i = b) (b : β) :
  Fin.foldl n f b = b
  := by
  apply foldl_induction (P := fun _ c => c = b) rfl
  rintro i c rfl
  apply h

theorem foldl_add [AddCommMonoid α] (f : Fin n → α) (b : α) :
  Fin.foldl n (fun acc i => acc + f i) b = b + ∑ i, f i
  := by
  induction n with
  | zero => simp
  | succ n ih => rw [Fin.foldl_succ_last, ih, Fin.sum_univ_castSucc, add_assoc]

theorem foldl_mul [CommMonoid α] (f : Fin n → α) (b : α) :
  Fin.foldl n (fun acc i => acc * f i) b = b * ∏ i, f i
  := by
  induction n with
  | zero => simp
  | succ n ih => rw [Fin.foldl_succ_last, ih, Fin.prod_univ_castSucc, mul_assoc]

/-- The indices less than `k + 1` that satisfy `p` are `k`, if it does, and those less than `k`. -/
theorem filter_lt_succ (p : Fin n → Prop) [DecidablePred p] (k : Fin n) (hk : p k) :
  Finset.univ.filter (fun j => p j ∧ j.val < k.val + 1)
    = insert k (Finset.univ.filter fun j => p j ∧ j.val < k.val)
  := by
  ext j
  simp only [Finset.mem_filter, Finset.mem_univ, true_and, Finset.mem_insert]
  constructor
  · rintro ⟨hj, hlt⟩
    rcases Nat.lt_succ_iff_lt_or_eq.mp hlt with h | h
    · right
      use hj, h
    · left
      apply Fin.ext h
  · rintro (rfl | ⟨hj, hlt⟩)
    · use hk, Nat.lt_succ_self _
    · use hj, Nat.lt_succ_of_lt hlt

/-- The difference from `b` of the terms at the indices less than `k` that satisfy `p` goes on at
`k` by subtracting the term there. -/
theorem sub_sum_filter_lt_succ [AddCommGroup α] (p : Fin n → Prop) [DecidablePred p] (f : Fin n → α)
    (b : α) (k : Fin n) (hk : p k) :
  b - ∑ j with p j ∧ j.val < k.val, f j - f k = b - ∑ j with p j ∧ j.val < k.val + 1, f j
  := by
  rw [filter_lt_succ p k hk, Finset.sum_insert (by simp), sub_sub, add_comm (f k)]

theorem foldBelow_sub [AddCommGroup α] (i : Fin n) (f : Fin n → α) (b : α) :
  foldBelow i (fun acc k => acc - f k) b = b - ∑ k ∈ Finset.Iio i, f k
  := by
  have h := foldBelow_induction (P := fun k c => c = b - ∑ j with True ∧ j.val < k, f j)
    (i := i) (f := fun acc k => acc - f k) (b := b) (by simp)
    (by
      rintro k c - rfl
      apply sub_sum_filter_lt_succ _ _ _ _ trivial)
  rw [h]
  congr 2
  ext j
  simp

theorem foldAbove_sub [AddCommGroup α] (i : Fin n) (f : Fin n → α) (b : α) :
  foldAbove i (fun acc k => acc - f k) b = b - ∑ k ∈ Finset.Ioi i, f k
  := by
  have h := foldAbove_induction (P := fun k c => c = b - ∑ j with i < j ∧ j.val < k, f j)
    (i := i) (f := fun acc k => acc - f k) (b := b)
    (by
      rw [Finset.filter_false_of_mem, Finset.sum_empty, sub_zero]
      rintro j - ⟨hi, hj⟩
      omega)
    (by
      rintro k c hk rfl
      apply sub_sum_filter_lt_succ _ _ _ _ hk)
  rw [h]
  congr 2
  ext j
  simp

/-- A sum of terms that vanish after `i`. -/
theorem sum_eq_add_sum_Iio [AddCommMonoid α] {f : Fin n → α} {i : Fin n}
    (h : ∀ k, i < k → f k = 0) :
  ∑ k, f k = f i + ∑ k ∈ Finset.Iio i, f k
  := by
  rw [← Finset.sum_insert Finset.notMem_Iio_self, Finset.Iio_insert]
  symm
  apply Finset.sum_subset (Finset.subset_univ _)
  intro k _ hk
  apply h k
  apply not_le.mp
  intro hle
  exact hk (Finset.mem_Iic.mpr hle)

/-- A sum of terms that vanish before `i`. -/
theorem sum_eq_add_sum_Ioi [AddCommMonoid α] {f : Fin n → α} {i : Fin n}
    (h : ∀ k, k < i → f k = 0) :
  ∑ k, f k = f i + ∑ k ∈ Finset.Ioi i, f k
  := by
  rw [← Finset.sum_insert Finset.notMem_Ioi_self, Finset.Ioi_insert]
  symm
  apply Finset.sum_subset (Finset.subset_univ _)
  intro k _ hk
  apply h k
  apply not_le.mp
  intro hle
  exact hk (Finset.mem_Ici.mpr hle)

theorem foldl_max_le_iff [LinearOrder α] (f : Fin n → α) (b c : α) :
  Fin.foldl n (fun acc i => max acc (f i)) b ≤ c ↔ b ≤ c ∧ ∀ i, f i ≤ c
  := by
  induction n with
  | zero => simp
  | succ n ih => rw [Fin.foldl_succ_last, max_le_iff, ih, Fin.forall_fin_succ', and_assoc]

theorem foldl_max_lt_iff [LinearOrder α] (f : Fin n → α) (b c : α) :
  Fin.foldl n (fun acc i => max acc (f i)) b < c ↔ b < c ∧ ∀ i, f i < c
  := by
  induction n with
  | zero => simp
  | succ n ih => rw [Fin.foldl_succ_last, max_lt_iff, ih, Fin.forall_fin_succ', and_assoc]

theorem foldl_foldl_max_le_iff [LinearOrder α] {m : Nat} (f : Fin m → Fin n → α) (b c : α) :
  Fin.foldl n (fun acc j => Fin.foldl m (fun acc i => max acc (f i j)) acc) b ≤ c
    ↔ b ≤ c ∧ ∀ j i, f i j ≤ c
  := by
  induction n with
  | zero => simp
  | succ n ih => rw [Fin.foldl_succ_last, foldl_max_le_iff, ih, Fin.forall_fin_succ', and_assoc]

end Numerics
