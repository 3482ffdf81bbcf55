import Mathlib.Algebra.Order.Field.Basic
import Numerics.Mat.Basic
import Numerics.Proofs.Index.Folds
import Numerics.Proofs.Scalar.Exact

/-!
# The largest entry

With exact scalars `v.maxAbs` and `a.maxAbs` are the least nonnegative bounds of the absolute values
of the entries of a vector and of a matrix.
-/

namespace Numerics

variable {α : Type} [ExactScalar α] {m n : Nat}

namespace Vec

theorem maxAbs_le_iff (v : Vec α n) (c : α) :
  v.maxAbs ≤ c ↔ 0 ≤ c ∧ ∀ i, |v i| ≤ c
  := by
  simp only [maxAbs, maxNum_eq, abs_eq]
  apply foldl_max_le_iff

theorem maxAbs_nonneg (v : Vec α n) :
  0 ≤ v.maxAbs
  := ((maxAbs_le_iff v _).mp le_rfl).1

theorem abs_le_maxAbs (v : Vec α n) (i : Fin n) :
  |v i| ≤ v.maxAbs
  := ((maxAbs_le_iff v _).mp le_rfl).2 i

end Vec

namespace Mat

theorem maxAbs_le_iff (a : Mat α m n) (c : α) :
  a.maxAbs ≤ c ↔ 0 ≤ c ∧ ∀ j i, |a i j| ≤ c
  := by
  simp only [maxAbs, maxNum_eq, abs_eq]
  apply foldl_foldl_max_le_iff

theorem maxAbs_nonneg (a : Mat α m n) :
  0 ≤ a.maxAbs
  := ((maxAbs_le_iff a _).mp le_rfl).1

theorem abs_le_maxAbs (a : Mat α m n) (i : Fin m) (j : Fin n) :
  |a i j| ≤ a.maxAbs
  := ((maxAbs_le_iff a _).mp le_rfl).2 j i

end Mat

end Numerics
