import Numerics.Difference
import Numerics.LeastSquares.Residuals
import Numerics.Linear.Cholesky
import Numerics.Linear.LU
import Numerics.Run

/-!
# Normal equations

Near a point the residuals are nearly linear, and the step that minimizes the sum of their squares
solves a symmetric linear system, `NormalEquations`: its matrix is the weighted sum of the outer
squares of the rows of the Jacobian, and its right side the weighted sum of the rows times the
residuals, with the opposite sign. The system is made of all residuals (`ofAll`) or of some of them
(`ofRows`).
-/

namespace Numerics

/-- A linear system of `n` equations for `n` unknowns. -/
structure NormalEquations (α : Type) (n : Nat) where
  matrix : Mat α n n
  rhs : Vec α n

namespace NormalEquations

variable {α : Type} [RealScalar α] {n m : Nat}

/-- The system without rows. -/
def empty : NormalEquations α n :=
  ⟨0, 0⟩

/-- The system `e` and the terms of one more row `j` of the Jacobian, with the residual `r` and the
weight `w`. -/
def addRow (e : NormalEquations α n) (j : Vec α n) (r w : α) : NormalEquations α n where
  matrix := e.matrix + Mat.outer j j * w
  rhs := e.rhs - j * (w * r)

/-- The system at `x` of all residuals, by the Jacobian as a whole. -/
def ofAll (r : Residuals α n m) (x : Vec α n) (w : Vec α m) (options : Options α) :
    NormalEquations α n :=
  let jac := jacobian r.eval x options
  let v := r.eval x
  Fin.foldl m (fun e i => e.addRow (jac.row i) (v i) (w i)) empty

/-- The system at `x` of the residuals `rows`, each differenced on its own. -/
def ofRows (r : Residuals α n m) (x : Vec α n) (w : Vec α m) (rows : List (Fin m))
    (options : Options α) : NormalEquations α n :=
  rows.foldl (fun e i =>
    e.addRow (gradient (fun z => r.evalRow z i) x options) (r.evalRow x i) (w i)) empty

/-- The system with `damping` added to the diagonal of its matrix. -/
def damped (e : NormalEquations α n) (damping : α) : NormalEquations α n :=
  { e with matrix := e.matrix + Mat.scaledIdentity damping }

/-- The solution by symmetric factorisation, and by elimination where that fails. -/
def solve (e : NormalEquations α n) : Except SolverError (Vec α n) :=
  match Linear.Cholesky.factor e.matrix with
  | .ok c => .ok (c.solve e.rhs)
  | .error _ =>
    match e.matrix.solve e.rhs with
    | .ok x => .ok x
    | .error _ => .error .singularSystem

end NormalEquations

end Numerics
