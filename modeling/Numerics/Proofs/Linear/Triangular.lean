import Mathlib.LinearAlgebra.Matrix.Block
import Numerics.Linear.Triangular
import Numerics.Proofs.Mat.Matrix
import Numerics.Proofs.Scalar.Exact

/-!
# Triangular systems

Substitution visits every index once and settles the component there, from the components that are
settled already. `Settled` is what holds along the way: a component that was visited is what the
equation at its index gives, and the others are still those of the right side.

With exact scalars this makes `solveUnitLower`, `solveLower` and `solveUpper` solutions for the
parts `unitLowerPart`, `lowerPart` and `upperPart` of a matrix.
-/

namespace Numerics

open Matrix

/-! ### Substitution -/

section

variable {α : Type} {n : Nat} {g : Vec α n → Fin n → α} {b : Vec α n}

/-- The components of `x` at the visited indices satisfy the equations `x i = g x i`, where `g`
finds the entry of `b` in the place of the unknown, and the other components are those of `b`. -/
structure Settled (g : Vec α n → Fin n → α) (b : Vec α n) (visited : Fin n → Prop) (x : Vec α n) :
    Prop where
  equation : ∀ i, visited i → x i = g (x.set i (b i)) i
  untouched : ∀ i, ¬ visited i → x i = b i

theorem Settled.congr {visited visited' : Fin n → Prop} {x : Vec α n}
    (h : Settled g b visited x) (hv : ∀ i, visited i ↔ visited' i) :
  Settled g b visited' x
  := by
  obtain rfl : visited = visited' := by
    funext i
    apply propext (hv i)
  exact h

/-- Visiting the index `k` settles it, if no equation at a visited index depends on the component
there. -/
theorem Settled.visit {visited : Fin n → Prop} {x : Vec α n} (h : Settled g b visited x)
    {k : Fin n} (hk : ¬ visited k)
    (hg : ∀ i, visited i → ∀ (x : Vec α n) (c : α), g (x.set k c) i = g x i) :
  Settled g b (fun i => visited i ∨ i = k) (x.set k (g x k))
  := by
  have hself : x.set k (x k) = x := by
    ext i
    rw [Vec.get_set]
    split
    case isTrue hi => rw [hi]
    case isFalse => rfl
  constructor
  · rintro i (hi | rfl)
    · have hik : k ≠ i := fun hik => hk (hik ▸ hi)
      have hswap : (x.set k (g x k)).set i (b i) = (x.set i (b i)).set k (g x k) := by
        ext j
        simp only [Vec.get_set]
        grind
      rw [hswap, hg i hi, Vec.get_set, if_neg hik]
      apply h.equation i hi
    · have hset : (x.set i (g x i)).set i (b i) = x.set i (x i) := by
        ext j
        simp only [Vec.get_set, h.untouched i hk]
        grind
      rw [hset, hself, Vec.get_set, if_pos rfl]
  · intro i hi
    have hik : k ≠ i := fun hik => hi (Or.inr hik.symm)
    rw [Vec.get_set, if_neg hik]
    apply h.untouched i (fun hv => hi (Or.inl hv))

/-- Substitution from the first component on settles all of them, if no equation depends on a later
component. -/
theorem settled_foldl (hg : ∀ i k, i < k → ∀ (x : Vec α n) (c : α), g (x.set k c) i = g x i) :
  Settled g b (fun _ => True) (Fin.foldl n (fun x i => x.set i (g x i)) b)
  := by
  have h : Settled g b (fun i => i.val < n) (Fin.foldl n (fun x i => x.set i (g x i)) b) := by
    apply foldl_induction (P := fun k x => Settled g b (fun i => i.val < k) x)
    · constructor
      · intro i hi
        exact absurd hi (Nat.not_lt_zero _)
      · intro i _
        rfl
    · intro k x hx
      apply (hx.visit (Nat.lt_irrefl _) (fun i hi => hg i k hi)).congr
      intro i
      rw [Nat.lt_succ_iff_lt_or_eq, Fin.ext_iff]
  apply h.congr
  intro i
  simp

/-- Substitution from the last component on settles all of them, if no equation depends on an
earlier component. -/
theorem settled_foldr (hg : ∀ i k, k < i → ∀ (x : Vec α n) (c : α), g (x.set k c) i = g x i) :
  Settled g b (fun _ => True) (Fin.foldr n (fun i x => x.set i (g x i)) b)
  := by
  have h : Settled g b (fun i => 0 ≤ i.val) (Fin.foldr n (fun i x => x.set i (g x i)) b) := by
    apply foldr_induction (P := fun k x => Settled g b (fun i => k ≤ i.val) x)
    · constructor
      · intro i hi
        exact absurd i.isLt (Nat.not_lt.mpr hi)
      · intro i _
        rfl
    · intro k x hx
      apply (hx.visit (Nat.not_succ_le_self _) (fun i hi => hg i k hi)).congr
      intro i
      rw [Fin.ext_iff, Nat.succ_le_iff, le_iff_lt_or_eq, eq_comm (a := i.val)]
  apply h.congr
  intro i
  simp

end

/-! ### Parts of a matrix -/

namespace Mat

variable {α : Type} [Zero α] {n : Nat}

/-- The part of `a` on and below the diagonal. -/
def lowerPart (a : Mat α n n) : Mat α n n :=
  ofFn fun i j => if j ≤ i then a i j else 0

/-- The part of `a` below the diagonal, with ones on the diagonal. -/
def unitLowerPart [One α] (a : Mat α n n) : Mat α n n :=
  ofFn fun i j => if j < i then a i j else if j = i then 1 else 0

/-- The part of `a` on and above the diagonal. -/
def upperPart (a : Mat α n n) : Mat α n n :=
  ofFn fun i j => if i ≤ j then a i j else 0

@[simp]
theorem get_lowerPart (a : Mat α n n) (i j : Fin n) :
  a.lowerPart i j = if j ≤ i then a i j else 0
  := get_ofFn _ i j

@[simp]
theorem get_unitLowerPart [One α] (a : Mat α n n) (i j : Fin n) :
  a.unitLowerPart i j = if j < i then a i j else if j = i then 1 else 0
  := get_ofFn _ i j

@[simp]
theorem get_upperPart (a : Mat α n n) (i j : Fin n) :
  a.upperPart i j = if i ≤ j then a i j else 0
  := get_ofFn _ i j

end Mat

/-- The entry of `v` at `k` is one, and those after it are zero. -/
structure Vec.Monic {α : Type} [Zero α] [One α] {n : Nat} (v : Vec α n) (k : Fin n) : Prop where
  eq_one : v k = 1
  eq_zero : ∀ i, k < i → v i = 0

namespace Linear

variable {α : Type} [ExactScalar α] {n : Nat}

/-! ### Rows -/

theorem lowerPart_mulVec (a : Mat α n n) (x : Vec α n) (i : Fin n) :
  a.lowerPart.mulVec x i = a i i * x i + ∑ k ∈ Finset.Iio i, a i k * x k
  := by
  have habove : ∀ k, i < k → a.lowerPart i k * x k = 0 := by
    intro k hk
    rw [Mat.get_lowerPart, if_neg hk.not_ge, zero_mul]
  rw [Mat.get_mulVec, foldl_add, zero_add, sum_eq_add_sum_Iio habove, Mat.get_lowerPart,
    if_pos le_rfl]
  congr 1
  apply Finset.sum_congr rfl
  intro k hk
  rw [Mat.get_lowerPart, if_pos (Finset.mem_Iio.mp hk).le]

theorem unitLowerPart_mulVec (a : Mat α n n) (x : Vec α n) (i : Fin n) :
  a.unitLowerPart.mulVec x i = x i + ∑ k ∈ Finset.Iio i, a i k * x k
  := by
  have hpart : a.unitLowerPart = a.unitLowerPart.lowerPart := by
    ext i j
    rw [Mat.get_lowerPart, Mat.get_unitLowerPart]
    grind
  rw [hpart, lowerPart_mulVec, Mat.get_unitLowerPart, if_neg (lt_irrefl i), if_pos rfl, one_mul]
  congr 1
  apply Finset.sum_congr rfl
  intro k hk
  rw [Mat.get_unitLowerPart, if_pos (Finset.mem_Iio.mp hk)]

theorem upperPart_mulVec (a : Mat α n n) (x : Vec α n) (i : Fin n) :
  a.upperPart.mulVec x i = a i i * x i + ∑ k ∈ Finset.Ioi i, a i k * x k
  := by
  have hbelow : ∀ k, k < i → a.upperPart i k * x k = 0 := by
    intro k hk
    rw [Mat.get_upperPart, if_neg hk.not_ge, zero_mul]
  rw [Mat.get_mulVec, foldl_add, zero_add, sum_eq_add_sum_Ioi hbelow, Mat.get_upperPart,
    if_pos le_rfl]
  congr 1
  apply Finset.sum_congr rfl
  intro k hk
  rw [Mat.get_upperPart, if_pos (Finset.mem_Ioi.mp hk).le]

/-! ### Reductions -/

theorem reduceBelow_eq (a : Mat α n n) (x : Vec α n) (i : Fin n) :
  reduceBelow a x i = x i - ∑ k ∈ Finset.Iio i, a i k * x k
  := foldBelow_sub i _ _

theorem reduceAbove_eq (a : Mat α n n) (x : Vec α n) (i : Fin n) :
  reduceAbove a x i = x i - ∑ k ∈ Finset.Ioi i, a i k * x k
  := foldAbove_sub i _ _

/-- A sum of products does not depend on a component of the vector outside the sum. -/
theorem sum_mul_set (s : Finset (Fin n)) (f : Fin n → α) (x : Vec α n) {j : Fin n} (hj : j ∉ s)
    (c : α) :
  ∑ k ∈ s, f k * x.set j c k = ∑ k ∈ s, f k * x k
  := by
  apply Finset.sum_congr rfl
  rintro k hk
  rw [Vec.get_set, if_neg]
  rintro rfl
  exact hj hk

theorem reduceBelow_set (a : Mat α n n) (x : Vec α n) {i k : Fin n} (h : i < k) (c : α) :
  reduceBelow a (x.set k c) i = reduceBelow a x i
  := by
  rw [reduceBelow_eq, reduceBelow_eq, Vec.get_set, if_neg h.ne', sum_mul_set]
  simp [h.le]

theorem reduceAbove_set (a : Mat α n n) (x : Vec α n) {i k : Fin n} (h : k < i) (c : α) :
  reduceAbove a (x.set k c) i = reduceAbove a x i
  := by
  rw [reduceAbove_eq, reduceAbove_eq, Vec.get_set, if_neg h.ne, sum_mul_set]
  simp [h.le]

theorem reduceBelow_set_self (a : Mat α n n) (x : Vec α n) (i : Fin n) (c : α) :
  reduceBelow a (x.set i c) i = c - ∑ k ∈ Finset.Iio i, a i k * x k
  := by
  rw [reduceBelow_eq, Vec.get_set, if_pos rfl, sum_mul_set _ _ _ Finset.notMem_Iio_self]

theorem reduceAbove_set_self (a : Mat α n n) (x : Vec α n) (i : Fin n) (c : α) :
  reduceAbove a (x.set i c) i = c - ∑ k ∈ Finset.Ioi i, a i k * x k
  := by
  rw [reduceAbove_eq, Vec.get_set, if_pos rfl, sum_mul_set _ _ _ Finset.notMem_Ioi_self]

/-! ### Solutions -/

/-- Forward substitution solves with the lower part and a diagonal of ones. -/
theorem mulVec_solveUnitLower (a : Mat α n n) (b : Vec α n) :
  a.unitLowerPart.mulVec (solveUnitLower a b) = b
  := by
  have h : Settled (reduceBelow a) b _ (solveUnitLower a b) :=
    settled_foldl (fun _ _ hik x c => reduceBelow_set a x hik c)
  ext i
  have hi := h.equation i trivial
  rw [reduceBelow_set_self] at hi
  rw [unitLowerPart_mulVec]
  apply eq_sub_iff_add_eq.mp hi

/-- Forward substitution solves with the lower part, if no entry of the diagonal is zero. -/
theorem mulVec_solveLower {a : Mat α n n} (ha : ∀ i, a i i ≠ 0) (b : Vec α n) :
  a.lowerPart.mulVec (solveLower a b) = b
  := by
  have h : Settled (fun x i => reduceBelow a x i / a i i) b _ (solveLower a b) :=
    settled_foldl (fun _ _ hik x c => by rw [reduceBelow_set a x hik c])
  ext i
  have hi := h.equation i trivial
  rw [reduceBelow_set_self, eq_div_iff (ha i), mul_comm] at hi
  rw [lowerPart_mulVec]
  apply eq_sub_iff_add_eq.mp hi

/-- Backward substitution solves with the upper part, if no entry of the diagonal is zero. -/
theorem mulVec_solveUpper {a : Mat α n n} (ha : ∀ i, a i i ≠ 0) (b : Vec α n) :
  a.upperPart.mulVec (solveUpper a b) = b
  := by
  have h : Settled (fun x i => reduceAbove a x i / a i i) b _ (solveUpper a b) :=
    settled_foldr (fun _ _ hik x c => by rw [reduceAbove_set a x hik c])
  ext i
  have hi := h.equation i trivial
  rw [reduceAbove_set_self, eq_div_iff (ha i), mul_comm] at hi
  rw [upperPart_mulVec]
  apply eq_sub_iff_add_eq.mp hi

/-! ### Cancelling -/

/-- Multiples of the columns before `k` cancel the column `k` in the rows before `k` of the upper
part, if its diagonal is nowhere zero there. They solve the system whose rows from `k` on are those
of the identity, which is triangular as well. -/
theorem exists_cancelling (u : Mat α n n) (k : Fin n) (hu : ∀ i, i < k → u i i ≠ 0) :
  ∃ v : Vec α n, v.Monic k ∧ ∀ i, i < k → u.upperPart.mulVec v i = 0
  := by
  let t : Mat α n n := Mat.ofFn fun i j => if i < k then u i j else if i = j then 1 else 0
  have ht : ∀ i j, t i j = if i < k then u i j else if i = j then 1 else 0 := Mat.get_ofFn _
  have hdiagonal : ∀ i, t i i ≠ 0 := by
    intro i
    rw [ht, if_pos rfl]
    split
    case isTrue hi => apply hu i hi
    case isFalse => apply one_ne_zero
  have hsolution := fun i => congrArg (fun w : Vec α n => w i)
    (mulVec_solveUpper hdiagonal (Vec.axis k))
  have hfrom : ∀ i, k ≤ i → solveUpper t (Vec.axis k) i = if i = k then 1 else 0 := by
    intro i hi
    have hrow := hsolution i
    rw [upperPart_mulVec, ht, if_neg hi.not_gt, if_pos rfl, one_mul, Finset.sum_eq_zero,
      add_zero, Vec.get_axis] at hrow
    · exact hrow
    · intro j hj
      rw [ht, if_neg hi.not_gt, if_neg (Finset.mem_Ioi.mp hj).ne, zero_mul]
  use solveUpper t (Vec.axis k)
  constructor
  · constructor
    · rw [hfrom k le_rfl, if_pos rfl]
    · intro i hi
      rw [hfrom i hi.le, if_neg hi.ne']
  · intro i hi
    have hrow := hsolution i
    simp only [upperPart_mulVec, ht, if_pos hi] at hrow
    rw [upperPart_mulVec, hrow, Vec.get_axis, if_neg hi.ne]

/-! ### Determinants -/

theorem det_unitLowerPart (a : Mat α n n) :
  a.unitLowerPart.toMatrix.det = 1
  := by
  rw [det_of_isLowerTriangular]
  · simp
  · intro i j hij
    have hji : i < j := hij
    simp [hji.not_gt, hji.ne']

theorem det_lowerPart (a : Mat α n n) :
  a.lowerPart.toMatrix.det = ∏ i, a i i
  := by
  rw [det_of_isLowerTriangular]
  · simp
  · intro i j hij
    have hji : i < j := hij
    simp [hji.not_ge]

theorem det_upperPart (a : Mat α n n) :
  a.upperPart.toMatrix.det = ∏ i, a i i
  := by
  rw [det_of_isUpperTriangular]
  · simp
  · intro i j hij
    have hji : j < i := hij
    simp [hji.not_ge]

end Linear

end Numerics
