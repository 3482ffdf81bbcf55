import Numerics.Mat.Basic

/-!
# Residuals

A least-squares problem is given by its `Residuals`, `m` functions of a point, which can be
evaluated together or one at a time; `cost` is the sum of their weighted squares.
-/

namespace Numerics

/-- A vector of `m` residuals as a function of a point with `n` coordinates. -/
structure Residuals (α : Type) (n m : Nat) where
  /-- All residuals at a point. -/
  eval : Vec α n → Vec α m
  /-- One residual at a point. -/
  evalRow : Vec α n → Fin m → α

namespace Residuals

variable {α : Type} {n m : Nat}

/-- The residuals given by the vector function `f`; a single one is an entry of its value. -/
def ofFunction (f : Vec α n → Vec α m) : Residuals α n m where
  eval := f
  evalRow x i := f x i

/-- The residuals given by the functions `fs`. -/
def ofFunctions (fs : Vec (Vec α n → α) m) : Residuals α n m where
  eval x := Vec.ofFn fun i => fs i x
  evalRow x i := fs i x

/-- The sum of the squares of the residuals at `x` with the weights `w`. -/
def cost [Zero α] [Add α] [Mul α] (r : Residuals α n m) (w : Vec α m) (x : Vec α n) : α :=
  let v := r.eval x
  Fin.foldl m (fun acc i => acc + w i * v i * v i) 0

end Residuals

end Numerics
