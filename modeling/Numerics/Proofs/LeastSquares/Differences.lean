import Mathlib.Algebra.Order.Field.Basic
import Mathlib.Data.Fin.VecNotation
import Mathlib.Tactic.FinCases
import Numerics.Proofs.Difference.Rows
import Numerics.Proofs.LeastSquares.Subsampling

/-!
# Differences of residuals

Residuals are differenced in two ways: all of them together, into the columns of a Jacobian, and one
at a time, into a gradient, where some of them are chosen. In exact arithmetic the rows of the
Jacobian are these gradients, as long as a residual on its own is an entry of all of them.

Residuals at the same points are added and multiplied by a factor, together and one at a time. Both
ways to difference them are linear.
-/

namespace Numerics

namespace Residuals

variable {α : Type} {n m : Nat}

instance [Add α] : Add (Residuals α n m) :=
  ⟨fun r s => ⟨fun x => r.eval x + s.eval x, fun x i => r.evalRow x i + s.evalRow x i⟩⟩

instance [Mul α] : HMul (Residuals α n m) α (Residuals α n m) :=
  ⟨fun r a => ⟨fun x => r.eval x * a, fun x i => r.evalRow x i * a⟩⟩

theorem eval_add [Add α] (r s : Residuals α n m) :
  (r + s).eval = fun x => r.eval x + s.eval x
  := rfl

theorem evalRow_add [Add α] (r s : Residuals α n m) (x : Vec α n) (i : Fin m) :
  (r + s).evalRow x i = r.evalRow x i + s.evalRow x i
  := rfl

theorem eval_mul [Mul α] (r : Residuals α n m) (a : α) :
  (r * a).eval = fun x => r.eval x * a
  := rfl

theorem evalRow_mul [Mul α] (r : Residuals α n m) (a : α) (x : Vec α n) (i : Fin m) :
  (r * a).evalRow x i = r.evalRow x i * a
  := rfl

end Residuals

variable {α : Type} [ExactScalar α] {n m : Nat}

/-- The gradient of a combination. -/
theorem gradient_combination (f g : Vec α n → α) (a b : α) (x : Vec α n) (options : Options α) :
  gradient (fun z => f z * a + g z * b) x options
    = gradient f x options * a + gradient g x options * b
  := by
  rw [gradient_add, ← gradient_mul, ← gradient_mul]
  simp only [mul_comm]

namespace Residuals

theorem jacobian_combination (r s : Residuals α n m) (a b : α) (x : Vec α n)
    (options : Options α) :
  jacobian (r * a + s * b).eval x options
    = jacobian r.eval x options * a + jacobian s.eval x options * b
  := by
  rw [eval_add, jacobian_add, eval_mul, eval_mul, jacobian_mul, jacobian_mul]

/-- With exact scalars, at any point, with either way of differencing. If a residual on its own is
an entry of all of them, then a row of the Jacobian of all residuals is both the gradient of one
that is evaluated on its own, as the equations of chosen residuals have it, and the gradient of one
that is an entry of all. Each of the three is linear in the residuals. -/
theorem differences_agree {r : Residuals α n m} (hr : r.Consistent) (x : Vec α n)
    (options : Options α) :
  (∀ i, (jacobian r.eval x options).row i = gradient (fun z => r.evalRow z i) x options
      ∧ (jacobian r.eval x options).row i = gradient (fun z => r.eval z i) x options)
    ∧ ∀ (s : Residuals α n m) (a b : α),
      jacobian (r * a + s * b).eval x options
          = jacobian r.eval x options * a + jacobian s.eval x options * b
        ∧ ∀ i,
          gradient (fun z => (r * a + s * b).evalRow z i) x options
              = gradient (fun z => r.evalRow z i) x options * a
                + gradient (fun z => s.evalRow z i) x options * b
            ∧ gradient (fun z => (r * a + s * b).eval z i) x options
              = gradient (fun z => r.eval z i) x options * a
                + gradient (fun z => s.eval z i) x options * b
  := by
  constructor
  · intro i
    have hrow := row_jacobian r.eval x options i
    simp only [hr _ i]
    exact ⟨hrow, hrow⟩
  · intro s a b
    refine ⟨jacobian_combination r s a b x options, ?_⟩
    intro i
    constructor
    · simp only [evalRow_add, evalRow_mul]
      apply gradient_combination
    · simp only [eval_add, eval_mul, Vec.get_add, Vec.get_mul]
      apply gradient_combination

/-- A sextic and a product of powers, whose differences are exact, and the combination of the latter
with a product. -/
theorem differences_agree_powers :
  let r : Residuals ℚ 2 2 := .ofFunction fun x => Vec.ofFn ![x 0 ^ 6, x 0 * x 1 ^ 3]
  let s : Residuals ℚ 2 2 := .ofFunctions (Vec.ofFn ![fun x => x 0 + x 1, fun x => x 0 * x 1])
  let x : Vec ℚ 2 := Vec.ofFn ![1, 2]
  let options : Options ℚ := { Options.standard 1 with differencing := .ridders }
  r.Consistent
    ∧ (jacobian r.eval x options).row 1 = Vec.ofFn ![8, 12]
    ∧ gradient (fun z => r.evalRow z 1) x options = Vec.ofFn ![8, 12]
    ∧ gradient (fun z => r.eval z 1) x options = Vec.ofFn ![8, 12]
    ∧ gradient (fun z => (r * (2 : ℚ) + s * (3 : ℚ)).evalRow z 1) x options = Vec.ofFn ![22, 27]
  := by
  intro r s x options
  have hr : r.Consistent := ofFunction_consistent _
  have hgradient : gradient (fun z => r.evalRow z 1) x options = Vec.ofFn ![8, 12] := by
    ext j
    fin_cases j <;> decide +kernel
  have hproduct : gradient (fun z => s.evalRow z 1) x options = Vec.ofFn ![2, 1] := by
    ext j
    fin_cases j <;> decide +kernel
  obtain ⟨hrows, hlinear⟩ := differences_agree hr x options
  obtain ⟨hown, hentry⟩ := hrows 1
  obtain ⟨-, hcombination⟩ := hlinear s 2 3
  refine ⟨hr, hown.trans hgradient, hgradient, hentry.symm.trans (hown.trans hgradient), ?_⟩
  rw [(hcombination 1).1, hgradient, hproduct]
  ext j
  fin_cases j <;> decide +kernel

end Residuals

end Numerics
