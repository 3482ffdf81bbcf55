import Mathlib.Algebra.Order.Field.Basic
import Mathlib.Tactic.Ring
import Numerics.Difference
import Numerics.Proofs.Scalar.Exact

/-!
# Differences of one value

An extrapolation subtracts and multiplies difference quotients, so a map that keeps differences and
multiples keeps extrapolations. One such map takes a vector to an entry of it, and in exact
arithmetic another multiplies by a factor. So a row of the Jacobian of a vector function is the
gradient of one of its values, though the two divide in different ways, and the gradient of a
multiple is the multiple of the gradient. The gradient of a sum is the sum of the gradients, and
row by row this is so for Jacobians as well.
-/

namespace Numerics

/-- A map that keeps differences and multiples keeps extrapolations. -/
theorem extrapolate_map {α β γ : Type} [RealScalar α] [Add β] [Sub β] [HMul β α β] [Add γ] [Sub γ]
    [HMul γ α γ] (φ : β → γ) (hsub : ∀ a b, φ (a - b) = φ a - φ b)
    (hmul : ∀ a (s : α), φ (a * s) = φ a * s) (quotient : α → β) (h : α)
    (differencing : Differencing) :
  φ (extrapolate quotient h differencing) = extrapolate (fun k => φ (quotient k)) h differencing
  := by
  cases differencing with
  | central => rfl
  | ridders => simp only [extrapolate, hsub, hmul]

variable {α : Type} [ExactScalar α] {m n : Nat}

/-! ### Rows -/

/-- An entry of a quotient that multiplies by a reciprocal is a quotient that divides. -/
theorem get_columnQuotient (f : Vec α n → Vec α m) (x : Vec α n) (j : Fin n) (h : α) (i : Fin m) :
  columnQuotient f x j h i = partialQuotient (fun z => f z i) x j h
  := by
  rw [columnQuotient, Vec.get_mul, Vec.get_sub, mul_one_div]
  rfl

/-- A row of a Jacobian is the gradient of one value. -/
theorem row_jacobian (f : Vec α n → Vec α m) (x : Vec α n) (options : Options α) (i : Fin m) :
  (jacobian f x options).row i = gradient (fun z => f z i) x options
  := by
  ext j
  show jacobian f x options i j = _
  rw [jacobian, Mat.get_ofCols, Vec.get_ofFn, gradient, Vec.get_ofFn,
    extrapolate_map (fun v : Vec α m => v i) (fun v w => Vec.get_sub v w i)
      (fun v s => Vec.get_mul v s i)]
  simp only [get_columnQuotient]

/-! ### Multiples -/

theorem partialQuotient_mul (s : α) (f : Vec α n → α) (x : Vec α n) (j : Fin n) (h : α) :
  partialQuotient (fun z => s * f z) x j h = s * partialQuotient f x j h
  := by
  rw [partialQuotient, partialQuotient, ← mul_sub, mul_div_assoc]

theorem gradient_mul (s : α) (f : Vec α n → α) (x : Vec α n) (options : Options α) :
  gradient (fun z => s * f z) x options = gradient f x options * s
  := by
  ext j
  rw [Vec.get_mul, gradient, Vec.get_ofFn, gradient, Vec.get_ofFn, mul_comm _ s,
    extrapolate_map (fun a => s * a) (mul_sub s) (fun a t => (mul_assoc s a t).symm)]
  congr 1
  funext h
  apply partialQuotient_mul

theorem jacobian_mul (f : Vec α n → Vec α m) (s : α) (x : Vec α n) (options : Options α) :
  jacobian (fun z => f z * s) x options = jacobian f x options * s
  := by
  ext i j
  rw [Mat.get_mul, ← Mat.get_row, ← Mat.get_row, row_jacobian, row_jacobian, ← Vec.get_mul,
    ← gradient_mul]
  simp only [Vec.get_mul, mul_comm s]

/-! ### Sums -/

theorem extrapolate_add (quotient quotient' : α → α) (h : α) (differencing : Differencing) :
  extrapolate (fun k => quotient k + quotient' k) h differencing
    = extrapolate quotient h differencing + extrapolate quotient' h differencing
  := by
  cases differencing with
  | central => rfl
  | ridders =>
    simp only [extrapolate]
    ring

theorem partialQuotient_add (f g : Vec α n → α) (x : Vec α n) (j : Fin n) (h : α) :
  partialQuotient (fun z => f z + g z) x j h = partialQuotient f x j h + partialQuotient g x j h
  := by
  rw [partialQuotient, partialQuotient, partialQuotient, add_sub_add_comm, add_div]

theorem gradient_add (f g : Vec α n → α) (x : Vec α n) (options : Options α) :
  gradient (fun z => f z + g z) x options = gradient f x options + gradient g x options
  := by
  ext j
  rw [Vec.get_add, gradient, Vec.get_ofFn, gradient, Vec.get_ofFn, gradient, Vec.get_ofFn,
    ← extrapolate_add]
  congr 1
  funext h
  apply partialQuotient_add

theorem jacobian_add (f g : Vec α n → Vec α m) (x : Vec α n) (options : Options α) :
  jacobian (fun z => f z + g z) x options = jacobian f x options + jacobian g x options
  := by
  ext i j
  rw [Mat.get_add, ← Mat.get_row, ← Mat.get_row, ← Mat.get_row, row_jacobian, row_jacobian,
    row_jacobian, ← Vec.get_add, ← gradient_add]
  simp only [Vec.get_add]

end Numerics
