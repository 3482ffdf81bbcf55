import Numerics.Linear.Failure
import Numerics.Linear.Triangular
import Numerics.Mat.Square

/-!
# Elimination with partial pivoting

A square matrix with suitably permuted rows is the product of a lower triangular matrix with a
diagonal of ones and an upper triangular one. `LU.factor` finds the permutation and both factors,
which it keeps in one packed matrix: what lies below the diagonal belongs to the lower factor, the
rest to the upper one.

A column is eliminated with the largest of its entries on and below the diagonal, the first of
equal ones. A pivot that does not exceed `LU.threshold`, which is relative to the largest entry of
the matrix, counts as zero.
-/

namespace Numerics

namespace Linear

/-- A packed factorisation of a row permutation of a matrix. -/
structure LU (α : Type) (n : Nat) where
  /-- The lower factor below the diagonal, and the upper factor on and above it. -/
  packed : Mat α n n
  /-- The row `i` of the product of the factors is the row `perm i` of the factored matrix. -/
  perm : Vec (Fin n) n
  /-- Whether the permutation is even. -/
  even : Bool

namespace LU

variable {α : Type} [RealScalar α] {n : Nat}

/-- Elimination starts from the matrix itself and the identity permutation. -/
def start (a : Mat α n n) : LU α n where
  packed := a
  perm := Vec.ofFn id
  even := true

/-- The row of the largest entry of the column `k` on and below the diagonal. -/
def pivotRow (a : Mat α n n) (k : Fin n) : Fin n :=
  foldAbove k (fun p r => if abs (a p k) < abs (a r k) then r else p) k

/-- Exchange the rows `k` and `p`, of both factors and of the permutation. -/
def exchange (s : LU α n) (k p : Fin n) : LU α n :=
  if p = k then s
  else
    { packed := ⟨s.packed.rows.swap k p⟩
      perm := s.perm.swap k p
      even := !s.even }

/-- Subtract from each row below `k` its multiple of the row `k`, right of the diagonal, and keep
the multiple in the column `k`. -/
def eliminate (a : Mat α n n) (k : Fin n) : Mat α n n :=
  Mat.ofRows fun r =>
    if k < r then
      let factor := a r k / a k k
      Vec.ofFn fun c =>
        if k < c then a r c - factor * a k c else if c = k then factor else a r c
    else
      a.row r

/-- Eliminate the column `k`. -/
def step (threshold : α) (s : LU α n) (k : Fin n) : Except Failure (LU α n) :=
  let p := pivotRow s.packed k
  if abs (s.packed p k) ≤ threshold then
    .error .singular
  else
    let s := s.exchange k p
    .ok { s with packed := eliminate s.packed k }

/-- Eliminate the first `k` columns. -/
def steps (threshold : α) (s : LU α n) : (k : Nat) → k ≤ n → Except Failure (LU α n)
  | 0, _ => .ok s
  | k + 1, h => do
    let s ← steps threshold s k (Nat.le_of_succ_le h)
    step threshold s ⟨k, h⟩

/-- The largest pivot that counts as zero. -/
def threshold (a : Mat α n n) : α :=
  epsilon * a.maxAbs

/-- The factorisation of `a`. -/
def factor (a : Mat α n n) : Except Failure (LU α n) :=
  steps (threshold a) (start a) n (Nat.le_refl n)

/-- The solution for the factored matrix and the right side `b`. -/
def solve (s : LU α n) (b : Vec α n) : Vec α n :=
  solveUpper s.packed (solveUnitLower s.packed (Vec.ofFn fun i => b (s.perm i)))

/-- The inverse of the factored matrix, whose columns are the solutions for the unit vectors. -/
def inverse (s : LU α n) : Mat α n n :=
  Mat.ofCols (Vec.ofFn fun c => s.solve (Vec.axis c))

/-- The determinant of the factored matrix. -/
def det (s : LU α n) : α :=
  Fin.foldl n (fun d i => d * s.packed i i) (if s.even then 1 else -1)

end LU

end Linear

namespace Mat

variable {α : Type} [RealScalar α] {n : Nat}

/-- The solution for the matrix `a` and the right side `b`, by elimination. -/
def solve (a : Mat α n n) (b : Vec α n) : Except Linear.Failure (Vec α n) := do
  let s ← Linear.LU.factor a
  return s.solve b

/-- The inverse of `a`, by elimination. -/
def inverse (a : Mat α n n) : Except Linear.Failure (Mat α n n) := do
  let s ← Linear.LU.factor a
  return s.inverse

/-- The determinant of `a`, which is zero where elimination fails. -/
def det (a : Mat α n n) : α :=
  match Linear.LU.factor a with
  | .ok s => s.det
  | .error _ => 0

end Mat

end Numerics
