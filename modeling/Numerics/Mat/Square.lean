import Numerics.Mat.Basic

/-!
# Square matrices

The `identity`, the `diagonal` matrices, and the symmetric part `symmetrized` of a matrix, which
equals its transpose in any arithmetic.
-/

namespace Numerics.Mat

variable {α : Type} {n : Nat}

/-- The identity matrix. -/
def identity [Zero α] [One α] : Mat α n n :=
  leading

/-- The matrix with the diagonal `d` and zeros elsewhere. -/
def diagonal [Zero α] (d : Vec α n) : Mat α n n :=
  ofFn fun i j => if i = j then d i else 0

/-- The identity times `s`. -/
def scaledIdentity [Zero α] (s : α) : Mat α n n :=
  diagonal (Vec.fill s)

/-- The symmetric part of `a`: each pair of opposite entries is replaced by its mean, taken with
the entry above the diagonal first, and the diagonal is kept. -/
def symmetrized [One α] [Add α] [Div α] (a : Mat α n n) : Mat α n n :=
  ofFn fun i j =>
    if i < j then (a i j + a j i) / (1 + 1)
    else if j < i then (a j i + a i j) / (1 + 1)
    else a i j

@[simp]
theorem get_identity [Zero α] [One α] (i j : Fin n) :
  (identity : Mat α n n) i j = if i = j then 1 else 0
  := by
  simp [identity, Fin.ext_iff]

@[simp]
theorem get_diagonal [Zero α] (d : Vec α n) (i j : Fin n) :
  diagonal d i j = if i = j then d i else 0
  := get_ofFn _ i j

@[simp]
theorem get_scaledIdentity [Zero α] (s : α) (i j : Fin n) :
  (scaledIdentity s : Mat α n n) i j = if i = j then s else 0
  := by
  rw [scaledIdentity, get_diagonal, Vec.get_fill]

/-- The symmetric part of a matrix equals its transpose. -/
theorem transpose_symmetrized [One α] [Add α] [Div α] (a : Mat α n n) :
  a.symmetrized.transpose = a.symmetrized
  := by
  ext i j
  rw [get_transpose, symmetrized, get_ofFn, get_ofFn]
  rcases Nat.lt_trichotomy i.val j.val with h | h | h
  · have below : i < j := h
    have above : ¬ j < i := Nat.lt_asymm h
    rw [if_neg above, if_pos below, if_pos below]
  · obtain rfl := Fin.ext h
    rfl
  · have below : j < i := h
    have above : ¬ i < j := Nat.lt_asymm h
    rw [if_pos below, if_neg above, if_pos below]

end Numerics.Mat
