import Numerics.Linear.Failure
import Numerics.Linear.Triangular
import Numerics.Mat.Square

/-!
# Symmetric factorisation

A symmetric positive definite matrix is the product of a lower triangular matrix and its transpose.
`Cholesky.factor` finds the lower factor column by column; it reads nothing above the diagonal.

The square of each diagonal entry of the factor has to exceed `Cholesky.floor`, which is relative
to the largest diagonal entry of the matrix. So the Gram matrix of dependent vectors is refused,
although rounding may have made it positive definite.
-/

namespace Numerics.Linear

/-- The lower triangular factor of a symmetric matrix. -/
structure Cholesky (α : Type) (n : Nat) where
  /-- The factor, with zeros above its diagonal. -/
  lower : Mat α n n

namespace Cholesky

variable {α : Type} [RealScalar α] {n : Nat}

/-- What the square of a diagonal entry of the factor of `a` has to exceed. -/
def floor (a : Mat α n n) : α :=
  let scale := Fin.foldl n (fun m i => maxNum m (abs (a i i))) 0
  epsilon * scale * nat n

/-- The square of the diagonal entry of the factor at `j`, given the columns `l` before it. -/
def pivot (a l : Mat α n n) (j : Fin n) : α :=
  foldBelow j (fun d k => d - l j k * l j k) (a j j)

/-- The column of the factor at `j`, given the columns `l` before it and its diagonal entry. -/
def column (a l : Mat α n n) (j : Fin n) (diag : α) : Vec α n :=
  Vec.ofFn fun i =>
    if i < j then 0
    else if i = j then diag
    else foldBelow j (fun s k => s - l i k * l j k) (a i j) / diag

/-- Find the column at `j`. -/
def step (a : Mat α n n) (bound : α) (l : Mat α n n) (j : Fin n) : Except Failure (Mat α n n) :=
  let d := pivot a l j
  if bound < d then
    .ok (l.setCol j (column a l j (sqrt d)))
  else
    .error .notPositiveDefinite

/-- The factor as far as its first `k` columns, with zeros in the others. -/
def steps (a : Mat α n n) (bound : α) : (k : Nat) → k ≤ n → Except Failure (Mat α n n)
  | 0, _ => .ok 0
  | k + 1, h => do
    let l ← steps a bound k (Nat.le_of_succ_le h)
    step a bound l ⟨k, h⟩

/-- The factorisation of `a`. -/
def factor (a : Mat α n n) : Except Failure (Cholesky α n) := do
  let l ← steps a (floor a) n (Nat.le_refl n)
  return ⟨l⟩

/-- The solution for the factored matrix and the right side `b`. -/
def solve (c : Cholesky α n) (b : Vec α n) : Vec α n :=
  solveUpper c.lower.transpose (solveLower c.lower b)

/-- The inverse of the factored matrix, whose columns are the solutions for the unit vectors. -/
def inverse (c : Cholesky α n) : Mat α n n :=
  Mat.ofCols (Vec.ofFn fun i => c.solve (Vec.axis i))

/-- The determinant of the factored matrix. -/
def det (c : Cholesky α n) : α :=
  let p := Fin.foldl n (fun p i => p * c.lower i i) 1
  p * p

end Cholesky

end Numerics.Linear
