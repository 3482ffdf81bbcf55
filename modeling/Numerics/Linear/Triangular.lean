import Numerics.Index
import Numerics.Mat.Basic

/-!
# Triangular systems

Forward and backward substitution: `solveLower` and `solveUpper` solve with one triangle of a
square matrix, its diagonal included, and `solveUnitLower` with the lower triangle and a diagonal
of ones. Each ignores the rest of the matrix, so two factors can be packed into one matrix and
solved where they are.

A component of the solution is found by subtracting the terms that are known from the right side,
in the order of their indices, and dividing once.
-/

namespace Numerics.Linear

variable {α : Type} [Sub α] [Mul α] {n : Nat}

/-- The entry of `x` at `i` less the terms `a i k * x k` with `k < i`. -/
def reduceBelow (a : Mat α n n) (x : Vec α n) (i : Fin n) : α :=
  foldBelow i (fun s k => s - a i k * x k) (x i)

/-- The entry of `x` at `i` less the terms `a i k * x k` with `k > i`. -/
def reduceAbove (a : Mat α n n) (x : Vec α n) (i : Fin n) : α :=
  foldAbove i (fun s k => s - a i k * x k) (x i)

/-- The solution for the right side `b` and the lower triangle of `a` with a diagonal of ones. -/
def solveUnitLower (a : Mat α n n) (b : Vec α n) : Vec α n :=
  Fin.foldl n (fun x i => x.set i (reduceBelow a x i)) b

variable [Div α]

/-- The solution for the right side `b` and the lower triangle of `a`. -/
def solveLower (a : Mat α n n) (b : Vec α n) : Vec α n :=
  Fin.foldl n (fun x i => x.set i (reduceBelow a x i / a i i)) b

/-- The solution for the right side `b` and the upper triangle of `a`, from the last component
on. -/
def solveUpper (a : Mat α n n) (b : Vec α n) : Vec α n :=
  Fin.foldr n (fun i x => x.set i (reduceAbove a x i / a i i)) b

end Numerics.Linear
