import Mathlib.GroupTheory.Perm.Sign
import Numerics.Linear.LU
import Numerics.Proofs.Steps

/-!
# Runs of elimination

What elimination does in any arithmetic, exact or not. It takes one step for each column, and each
step either exchanges two rows and eliminates, or fails because its pivot counts as zero. So the
rows of a factorisation are a permutation of the rows of the matrix, and its parity is the recorded
one, by `factor_permutes`.
-/

namespace Numerics.Linear.LU

variable {α : Type} {n : Nat}

/-! ### Exchanges -/

/-- A factorisation is determined by its entries, its permutation and its parity. -/
theorem ext {s s' : LU α n} (packed : ∀ i j, s.packed i j = s'.packed i j)
    (perm : ∀ i, s.perm i = s'.perm i) (even : s.even = s'.even) :
  s = s'
  := by
  obtain ⟨p, σ, e⟩ := s
  obtain ⟨p', σ', e'⟩ := s'
  obtain rfl := Mat.ext packed
  obtain rfl := Vec.ext perm
  obtain rfl := even
  rfl

@[simp]
theorem exchange_packed (s : LU α n) (k p i j : Fin n) :
  (s.exchange k p).packed i j = s.packed (Equiv.swap k p i) j
  := by
  unfold exchange
  split
  case isTrue h => rw [h, Equiv.swap_self, Equiv.refl_apply]
  case isFalse h =>
    rw [Mat.get, Mat.row, Vec.get_swap, Equiv.swap_apply_def]
    split_ifs <;> rfl

@[simp]
theorem exchange_perm (s : LU α n) (k p i : Fin n) :
  (s.exchange k p).perm i = s.perm (Equiv.swap k p i)
  := by
  unfold exchange
  split
  case isTrue h => rw [h, Equiv.swap_self, Equiv.refl_apply]
  case isFalse h =>
    rw [Vec.get_swap, Equiv.swap_apply_def]
    split_ifs <;> rfl

theorem exchange_even (s : LU α n) (k p : Fin n) :
  (s.exchange k p).even = if p = k then s.even else !s.even
  := by
  unfold exchange
  split <;> rfl

/-! ### Permutations -/

/-- The rows of `s` are permuted by `σ`, and the parity of `σ` is the recorded one. -/
structure Permutes (s : LU α n) (σ : Equiv.Perm (Fin n)) : Prop where
  perm_eq : ∀ i, s.perm i = σ i
  sign_eq : Equiv.Perm.sign σ = if s.even then 1 else -1

theorem start_permutes (a : Mat α n n) :
  (start a).Permutes 1
  := by
  constructor
  · intro i
    apply Vec.get_ofFn
  · apply Equiv.Perm.sign_one

theorem Permutes.exchange {s : LU α n} {σ : Equiv.Perm (Fin n)} (h : s.Permutes σ) (k p : Fin n) :
  (s.exchange k p).Permutes (σ * Equiv.swap k p)
  := by
  constructor
  · intro i
    rw [exchange_perm, h.perm_eq]
    rfl
  · rw [exchange_even, Equiv.Perm.sign_mul, h.sign_eq]
    by_cases hpk : p = k
    · rw [if_pos hpk, hpk, Equiv.swap_self, Equiv.Perm.sign_refl, mul_one]
    · rw [if_neg hpk, Equiv.Perm.sign_swap (Ne.symm hpk)]
      cases s.even <;> rfl

variable [RealScalar α]

/-! ### Pivots -/

theorem le_pivotRow (a : Mat α n n) (k : Fin n) :
  k ≤ pivotRow a k
  := by
  apply foldAbove_induction (P := fun _ p => k ≤ p) (le_refl k)
  intro r p hr hp
  split
  · exact hr.le
  · exact hp

/-! ### Steps -/

theorem get_eliminate (p : Mat α n n) (k i j : Fin n) :
  eliminate p k i j
    = if k < i then
        if k < j then p i j - p i k / p k k * p k j else if j = k then p i k / p k k else p i j
      else p i j
  := by
  rw [eliminate, Mat.get_ofRows]
  split
  · apply Vec.get_ofFn
  · rfl

/-- The state after the column `k` is eliminated with the pivot in the row `p`. -/
def advance (s : LU α n) (k p : Fin n) : LU α n :=
  { s.exchange k p with packed := eliminate (s.exchange k p).packed k }

variable {t : α} {s s' : LU α n} {e : Failure}

theorem step_eq (t : α) (s : LU α n) (k : Fin n) :
  step t s k = if abs (s.packed (pivotRow s.packed k) k) ≤ t then .error .singular
    else .ok (s.advance k (pivotRow s.packed k))
  := rfl

theorem step_eq_ok {k : Fin n} (h : step t s k = .ok s') :
  ¬ abs (s.packed (pivotRow s.packed k) k) ≤ t ∧ s' = s.advance k (pivotRow s.packed k)
  := by
  rw [step_eq] at h
  split at h
  case isTrue => cases h
  case isFalse hpivot =>
    cases h
    use hpivot

theorem step_eq_error {k : Fin n} (h : step t s k = .error e) :
  e = .singular
  := by
  rw [step_eq] at h
  split at h
  · cases h
    rfl
  · cases h

/-- Elimination fails in one way only. -/
theorem factor_eq_error {a : Mat α n n} (h : factor a = .error e) :
  e = .singular
  := by
  obtain ⟨k, u, hu⟩ := steps_error (fun _ => rfl) (fun _ _ => rfl) n _ h
  apply step_eq_error hu

/-- Each step of elimination permutes the rows, and records the parity. -/
theorem permutes_steps {a : Mat α n n} {k : Nat} {hk : k ≤ n}
    (h : steps t (start a) k hk = .ok s) :
  ∃ σ, s.Permutes σ
  := by
  apply steps_induction (P := fun _ s => ∃ σ, s.Permutes σ) (fun _ => rfl) (fun _ _ => rfl) _ _
    k hk s h
  · use 1
    apply start_permutes
  · rintro k u u' ⟨σ, hσ⟩ hu
    obtain ⟨-, rfl⟩ := step_eq_ok hu
    obtain ⟨hperm, hsign⟩ := hσ.exchange k (pivotRow u.packed k)
    use σ * Equiv.swap k (pivotRow u.packed k), hperm, hsign

/-- Elimination permutes the rows, and records the parity. -/
theorem factor_permutes {a : Mat α n n} (h : factor a = .ok s) :
  ∃ σ, s.Permutes σ
  := permutes_steps h

end Numerics.Linear.LU
