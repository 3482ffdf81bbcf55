import Mathlib.Algebra.Order.Field.Basic
import Numerics.Proofs.Linear.Elimination
import Numerics.Proofs.Scalar.Guarded
import Numerics.Proofs.Scalar.Signs

/-!
# The divisors of elimination

Elimination divides by pivots, and a pivot that it accepts is not zero, in any arithmetic in which
zeros have the absolute value zero and the threshold is not below zero. Later exchanges and
eliminations leave the pivots where they are: a step for the column `k` changes no entry on the
diagonal above the row `k`. So no division is one by zero, neither in the factorisation nor in the
substitutions that solve with it, by `factor_divisors`. Both assumptions are true of the machine
formats, for every matrix.

This is stated as an equation of two runs, one in the arithmetic itself and one in that of the
`Guarded` scalars, in which a division by zero leaves a trap for all to see.
-/

namespace Numerics.Linear

open Float.Model (UnpackedFloat Format)

variable {α : Type} {n : Nat}

/-! ### Exchanges -/

/-- The factorisation `s` of guarded scalars. -/
def LU.guarded (s : LU α n) : LU (Guarded α) n where
  packed := s.packed.guarded
  perm := s.perm
  even := s.even

theorem LU.exchange_guarded (s : LU α n) (k p : Fin n) :
  s.guarded.exchange k p = (s.exchange k p).guarded
  := by
  apply ext
  · intro i j
    rw [exchange_packed, guarded, guarded, Mat.get_guarded, Mat.get_guarded, exchange_packed]
  · intro i
    rw [exchange_perm, guarded, guarded, exchange_perm]
  · rw [exchange_even, guarded, guarded, exchange_even]

variable [RealScalar α]

/-! ### Substitution -/

theorem reduceBelow_guarded (a : Mat α n n) (x : Vec α n) (i : Fin n) :
  reduceBelow a.guarded x.guarded i = .value (reduceBelow a x i)
  := by
  rw [reduceBelow, Vec.get_guarded]
  symm
  apply foldBelow_hom Guarded.value
  intro s k
  rw [Mat.get_guarded, Vec.get_guarded]
  rfl

theorem reduceAbove_guarded (a : Mat α n n) (x : Vec α n) (i : Fin n) :
  reduceAbove a.guarded x.guarded i = .value (reduceAbove a x i)
  := by
  rw [reduceAbove, Vec.get_guarded]
  symm
  apply foldAbove_hom Guarded.value
  intro s k
  rw [Mat.get_guarded, Vec.get_guarded]
  rfl

theorem solveUnitLower_guarded (a : Mat α n n) (b : Vec α n) :
  solveUnitLower a.guarded b.guarded = (solveUnitLower a b).guarded
  := by
  symm
  apply foldl_hom Vec.guarded
  intro x i
  rw [reduceBelow_guarded, Vec.set_guarded]

theorem solveLower_guarded {a : Mat α n n} (ha : ∀ i, ¬ IsZero (a i i)) (b : Vec α n) :
  solveLower a.guarded b.guarded = (solveLower a b).guarded
  := by
  symm
  apply foldl_hom Vec.guarded
  intro x i
  rw [reduceBelow_guarded, Mat.get_guarded, Guarded.value_div _ (ha i), Vec.set_guarded]

theorem solveUpper_guarded {a : Mat α n n} (ha : ∀ i, ¬ IsZero (a i i)) (b : Vec α n) :
  solveUpper a.guarded b.guarded = (solveUpper a b).guarded
  := by
  symm
  apply foldr_hom Vec.guarded
  intro i x
  rw [reduceAbove_guarded, Mat.get_guarded, Guarded.value_div _ (ha i), Vec.set_guarded]

namespace LU

/-! ### Solving -/

variable {s : LU α n}

theorem solve_guarded (hs : ∀ k, ¬ IsZero (s.packed k k)) (b : Vec α n) :
  s.guarded.solve b.guarded = (s.solve b).guarded
  := by
  have hpermuted : Vec.ofFn (fun i => b.guarded (s.perm i))
      = (Vec.ofFn fun i => b (s.perm i)).guarded := by
    ext i
    rw [Vec.get_ofFn, Vec.get_guarded, Vec.get_guarded, Vec.get_ofFn]
  show solveUpper s.packed.guarded (solveUnitLower s.packed.guarded
      (Vec.ofFn fun i => b.guarded (s.perm i)))
    = (s.solve b).guarded
  rw [hpermuted, solveUnitLower_guarded, solveUpper_guarded hs]
  rfl

theorem inverse_guarded (hs : ∀ k, ¬ IsZero (s.packed k k)) :
  s.guarded.inverse = s.inverse.guarded
  := Mat.ofCols_axis_guarded (solve_guarded hs)

/-! ### Pivots -/

theorem pivotRow_guarded (a : Mat α n n) (k : Fin n) :
  pivotRow a.guarded k = pivotRow a k
  := by
  apply foldAbove_hom id
  intro p r
  rw [Mat.get_guarded, Mat.get_guarded]
  rfl

/-- A pivot that exceeds the threshold is not zero. -/
theorem pivot_not_isZero {t : α} (hzero : ∀ z : α, IsZero z → abs z = 0) (ht : 0 ≤ t) {x : α}
    (hx : ¬ abs x ≤ t) :
  ¬ IsZero x
  := by
  intro h
  apply hx
  rw [hzero x h]
  exact ht

/-- A step for the column `k` brings the pivot to the diagonal, and keeps the diagonal above. -/
theorem get_advance (s : LU α n) {k p j : Fin n} (hp : k ≤ p) (hj : j ≤ k) :
  (s.advance k p).packed j j = s.packed (if j = k then p else j) j
  := by
  rw [advance, get_eliminate, if_neg hj.not_gt, exchange_packed]
  rcases hj.eq_or_lt with rfl | hj
  · rw [Equiv.swap_apply_left, if_pos rfl]
  · rw [swap_of_lt hp hj, if_neg hj.ne]

theorem eliminate_guarded {a : Mat α n n} {k : Fin n} (ha : ¬ IsZero (a k k)) :
  eliminate a.guarded k = (eliminate a k).guarded
  := by
  ext i j
  simp only [get_eliminate, Mat.get_guarded, Guarded.value_div _ ha]
  split_ifs <;> rfl

theorem advance_guarded (s : LU α n) {k p : Fin n} (hp : ¬ IsZero (s.packed p k)) :
  s.guarded.advance k p = (s.advance k p).guarded
  := by
  have hpivot : ¬ IsZero ((s.exchange k p).packed k k) := by
    rw [exchange_packed, Equiv.swap_apply_left]
    exact hp
  rw [advance, exchange_guarded]
  show LU.mk (eliminate (s.exchange k p).packed.guarded k) _ _ = _
  rw [eliminate_guarded hpivot]
  rfl

/-! ### Runs -/

variable {a : Mat α n n} {t : α}

/-- The pivots of the columns that are eliminated are not zero: each of them comes to the diagonal
in its own step, and is not moved again. -/
theorem pivots_steps (hzero : ∀ z : α, IsZero z → abs z = 0) (ht : 0 ≤ t) {k : Nat} {hk : k ≤ n}
    (h : steps t (start a) k hk = .ok s) (j : Fin n) (hj : j.val < k) :
  ¬ IsZero (s.packed j j)
  := by
  apply steps_induction
    (P := fun k (s : LU α n) => ∀ j : Fin n, j.val < k → ¬ IsZero (s.packed j j))
    (fun _ => rfl) (fun _ _ => rfl) _ _ k hk s h j hj
  · intro j hj
    exact absurd hj (Nat.not_lt_zero _)
  · intro k u u' hu hstep j hj
    obtain ⟨hpivot, rfl⟩ := step_eq_ok hstep
    rw [get_advance u (le_pivotRow _ k) (Nat.le_of_lt_succ hj)]
    split
    case isTrue h =>
      rw [h]
      apply pivot_not_isZero hzero ht hpivot
    case isFalse h => exact hu j (Nat.lt_of_le_of_ne (Nat.le_of_lt_succ hj) (Fin.val_ne_of_ne h))

theorem step_guarded (hzero : ∀ z : α, IsZero z → abs z = 0) (ht : 0 ≤ t) {k : Fin n} {s' : LU α n}
    (h : step t s k = .ok s') :
  step (.value t) s.guarded k = .ok s'.guarded
  := by
  obtain ⟨hpivot, rfl⟩ := step_eq_ok h
  have hcompare : ¬ abs (s.guarded.packed (pivotRow s.packed k) k) ≤ Guarded.value t := by
    rw [guarded, Mat.get_guarded]
    exact hpivot
  have hrow : pivotRow s.guarded.packed k = pivotRow s.packed k := pivotRow_guarded s.packed k
  rw [step_eq, hrow, if_neg hcompare, advance_guarded s (pivot_not_isZero hzero ht hpivot)]

/-- Elimination that succeeds does the same with guarded scalars, so it divides by no zero. -/
theorem steps_guarded (hzero : ∀ z : α, IsZero z → abs z = 0) (ht : 0 ≤ t) {k : Nat} {hk : k ≤ n}
    (h : steps t (start a) k hk = .ok s) :
  steps (.value t) (start a.guarded) k hk = .ok s.guarded
  := by
  apply steps_induction (P := fun k s => ∀ hk, steps (.value t) (start a.guarded) k hk
    = .ok (guarded s)) (fun _ => rfl) (fun _ _ => rfl) _ _ k hk s h hk
  · intro _
    rfl
  · intro k u u' hu hstep hk
    rw [steps, hu]
    apply step_guarded hzero ht hstep

theorem factor_guarded (hzero : ∀ z : α, IsZero z → abs z = 0) (ht : 0 ≤ threshold a)
    (h : factor a = .ok s) :
  factor a.guarded = .ok s.guarded
  := by
  have hthreshold : threshold a.guarded = .value (threshold a) := by
    rw [threshold, Mat.maxAbs_guarded]
    rfl
  rw [factor, hthreshold]
  apply steps_guarded hzero ht h

/-- In a machine format no matrix has a threshold below zero. -/
theorem machine_threshold_nonneg {spec : Format} {unpacked : α → UnpackedFloat}
    (hα : DividedAs α spec unpacked)
    (hε : ∃ m e hm, unpacked epsilon = .finite .positive m e hm) (a : Mat α n n) :
  0 ≤ epsilon * a.maxAbs
  := by
  have hmax : IsNumber a.maxAbs ∧ Unsigned (unpacked a.maxAbs) := by
    apply foldl_induction (P := fun _ x => IsNumber x ∧ Unsigned (unpacked x))
      hα.number_zero_unsigned
    intro j x hx
    apply hα.unsigned_foldl_maxNum_abs hx.1 hx.2
  obtain ⟨m, e, hm, hε⟩ := hε
  apply hα.nonneg
  · apply hα.unsigned_product _ hmax.2
    rw [hε]
    rfl
  · rw [IsNumber, hα.isNaN_eq, hα.mul_eq, isNaN_unpack_pack, hε, isNaN_finite_mul, ← hα.isNaN_eq]
    exact hmax.1

/-- In any arithmetic in which zeros have the absolute value zero, a matrix `a` whose threshold is
not below zero is factored without a division by zero: no pivot is zero, and the factorisation is
the same with guarded scalars. So are all solutions and the inverse. The recorded order is a
permutation of the rows, with the recorded parity. -/
theorem factor_divisors (hzero : ∀ z : α, IsZero z → abs z = 0) (ht : 0 ≤ epsilon * a.maxAbs)
    (h : factor a = .ok s) :
  (∀ k, ¬ IsZero (s.packed k k))
    ∧ factor a.guarded = .ok s.guarded
    ∧ (∀ b : Vec α n, s.guarded.solve b.guarded = (s.solve b).guarded)
    ∧ s.guarded.inverse = s.inverse.guarded
    ∧ ∃ σ : Equiv.Perm (Fin n), (∀ i, s.perm i = σ i)
      ∧ Equiv.Perm.sign σ = if s.even then 1 else -1
  := by
  have hpivots : ∀ k, ¬ IsZero (s.packed k k) := fun k => pivots_steps hzero ht h k k.isLt
  obtain ⟨σ, hσ⟩ := factor_permutes h
  refine ⟨hpivots, factor_guarded hzero ht h, solve_guarded hpivots, inverse_guarded hpivots, ?_⟩
  use σ, hσ.perm_eq, hσ.sign_eq

/-- In double precision a matrix with an entry that is not a number is factored after an exchange,
with a pivot that is not a number; no division is by zero. -/
theorem factor_divisors_double :
  let nan : Float := 0 / 0
  let a : Mat Float 2 2 := Mat.ofFn !![0, nan; 2, 1]
  ∃ s, factor a = .ok s ∧ isNaN (s.packed 1 1) = true
    ∧ (∀ k, ¬ IsZero (s.packed k k))
    ∧ factor a.guarded = .ok s.guarded
    ∧ (∀ b : Vec Float 2, s.guarded.solve b.guarded = (s.solve b).guarded)
    ∧ s.guarded.inverse = s.inverse.guarded
    ∧ ∃ σ : Equiv.Perm (Fin 2), (∀ i, s.perm i = σ i)
      ∧ Equiv.Perm.sign σ = if s.even then 1 else -1
  := by
  intro nan a
  have hzero : ∀ z : Float, IsZero z → abs z = 0 := fun _ => dividedAs_double.abs_of_isZero
  have ht := machine_threshold_nonneg dividedAs_double exists_epsilon_double a
  obtain ⟨s, hs, hnan⟩ : ∃ s, factor a = .ok s ∧ isNaN (s.packed 1 1) = true := by
    apply exists_of_any
    decide +kernel
  use s, hs, hnan
  apply factor_divisors hzero ht hs

end LU

end Numerics.Linear
