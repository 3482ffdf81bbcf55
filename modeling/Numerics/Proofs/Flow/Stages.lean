import Mathlib.Algebra.Order.Field.Basic
import Numerics.Flow.Integrator
import Numerics.Proofs.Mat.Matrix

/-!
# The stages of a step

A step of an explicit method finds one slope at each stage, `Tableau.slope`, from the slopes at the
stages before it: the stage looks at the state `Tableau.look`, which is moved along these slopes. By
`slope_eq` and `advance_eq` the slopes determine the step, in any arithmetic.
-/

namespace Numerics.Tableau

variable {α : Type} [RealScalar α] {n s : Nat}

/-- The slope at the stage `i` of a step. -/
def slope (tab : Tableau α s) (f : VectorField α n) (t : α) (x : Vec α n) (h : α) (i : Fin s) :
    Vec α n :=
  tab.stages f t x h s le_rfl i

/-- The state that the stage `i` looks at. -/
def look (tab : Tableau α s) (f : VectorField α n) (t : α) (x : Vec α n) (h : α) (i : Fin s) :
    Vec α n :=
  foldBelow i (fun y j => y + tab.slope f t x h j * (h * tab.coupling i j)) x

variable (tab : Tableau α s) (f : VectorField α n) (t : α) (x : Vec α n) (h : α)

/-- The slope at a stage does not depend on how many stages follow. -/
theorem get_stages {i : Nat} (hi : i ≤ s) (j : Fin i) :
  tab.stages f t x h i hi j
    = f (t + tab.times ⟨j.val, j.isLt.trans_le hi⟩ * h)
        (tab.stageState x h (j.isLt.trans_le hi)
          (tab.stages f t x h j.val (j.isLt.le.trans hi)))
  := by
  induction i with
  | zero => exact j.elim0
  | succ i ih =>
    rw [stages, Vec.get_push]
    split
    case isTrue hj => exact ih _ ⟨j.val, hj⟩
    case isFalse hj =>
      obtain ⟨j, hlt⟩ := j
      obtain rfl : j = i := Nat.le_antisymm (Nat.le_of_lt_succ hlt) (not_lt.mp hj)
      rfl

theorem stages_eq_slope {i : Nat} (hi : i ≤ s) (j : Fin i) :
  tab.stages f t x h i hi j = tab.slope f t x h ⟨j.val, j.isLt.trans_le hi⟩
  := by
  rw [slope, get_stages, get_stages]

/-- The slope at a stage is the one of the system, at the time and the state of the stage. -/
theorem slope_eq (i : Fin s) :
  tab.slope f t x h i = f (t + tab.times i * h) (tab.look f t x h i)
  := by
  rw [slope, get_stages, look, foldBelow, stageState]
  simp only [stages_eq_slope]

/-- A step goes along the weighted slopes. -/
theorem advance_eq :
  tab.advance f t x h
    = x + Fin.foldl s (fun y i => y + tab.slope f t x h i * tab.weights i) (0 : Vec α n) * h
  := rfl

end Numerics.Tableau
