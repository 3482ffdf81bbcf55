import Mathlib.Tactic.FieldSimp
import Mathlib.Tactic.Ring
import Numerics.Difference
import Numerics.Proofs.Mat.Matrix
import Numerics.Proofs.Scalar.Exact

/-!
# Differences of affine functions

A function `IsAffine` with the matrix `a` if a change of its argument changes its value by `a` times
the change. In exact arithmetic its difference quotients along the axis `j` are the column `j` of
`a`, at whatever step, as long as this is not zero. So is every combination of quotients that
`extrapolate` makes, and both Jacobians by differences are `a`.
-/

namespace Numerics

open Matrix

variable {α : Type} [ExactScalar α] {m n : Nat}

/-- The function `f` changes by `a` times the change of its argument. -/
def IsAffine (f : Vec α n → Vec α m) (a : Mat α m n) : Prop :=
  ∀ x d, f (x + d) = f x + a.mulVec d

theorem isAffine_mulVec (a : Mat α m n) :
  IsAffine a.mulVec a
  := by
  intro x d
  simp only [← Vec.toFun_inj, Mat.toFun_mulVec, Vec.toFun_add, mulVec_add]

section

variable {f : Vec α n → Vec α m} {a : Mat α m n}

theorem IsAffine.add_const (h : IsAffine f a) (v : Vec α m) :
  IsAffine (fun x => f x + v) a
  := by
  intro x d
  simp only [h x d, ← Vec.toFun_inj, Vec.toFun_add, add_right_comm]

theorem IsAffine.sub_const (h : IsAffine f a) (v : Vec α m) :
  IsAffine (fun x => f x - v) a
  := by
  intro x d
  simp only [h x d, ← Vec.toFun_inj, Vec.toFun_add, Vec.toFun_sub, add_sub_right_comm]

/-! ### Along an axis -/

theorem Vec.ahead_eq_behind_add (x : Vec α n) (j : Fin n) (h : α) :
  x.ahead j h = x.behind j h + (Vec.axis j : Vec α n) * (h + h)
  := by
  ext i
  rw [Vec.ahead, Vec.behind, Vec.get_add, Vec.get_set, Vec.get_set, Vec.get_mul, Vec.get_axis]
  obtain rfl | hij := eq_or_ne i j
  · simp
  · simp [hij, hij.symm]

theorem Mat.mulVec_axis_mul (a : Mat α m n) (j : Fin n) (h : α) :
  a.mulVec ((Vec.axis j : Vec α n) * h) = a.col j * h
  := by
  ext i
  rw [Mat.get_mulVec, foldl_add, zero_add, Vec.get_mul, Mat.get_col]
  simp

/-- The difference of the values on both sides of `x`. -/
theorem IsAffine.ahead_sub_behind (hf : IsAffine f a) (x : Vec α n) (j : Fin n) (h : α) :
  f (x.ahead j h) - f (x.behind j h) = a.col j * (h + h)
  := by
  rw [Vec.ahead_eq_behind_add, hf, Mat.mulVec_axis_mul]
  ext i
  simp

theorem IsAffine.columnQuotient (hf : IsAffine f a) (x : Vec α n) (j : Fin n) {h : α}
    (hne : h ≠ 0) :
  columnQuotient f x j h = a.col j
  := by
  have hadd : h + h ≠ 0 := by
    rw [← two_mul]
    exact mul_ne_zero two_ne_zero hne
  rw [Numerics.columnQuotient, hf.ahead_sub_behind]
  ext i
  rw [Vec.get_mul, Vec.get_mul, mul_assoc, mul_one_div_cancel hadd, mul_one]

end

/-! ### Jacobians -/

/-- The default step of differences. -/
theorem Options.spacing_standard_ne_zero (tolerance : α) :
  (Options.standard tolerance).spacing ≠ 0
  := by
  rw [Options.standard, ratio_eq]
  norm_num

/-- Quotients that are the same at all steps give what they are. -/
theorem extrapolate_const {quotient : α → Vec α m} {v : Vec α m} {h : α} (hne : h ≠ 0)
    (hquotient : ∀ k, k ≠ 0 → quotient k = v) (differencing : Differencing) :
  extrapolate quotient h differencing = v
  := by
  cases differencing with
  | central => exact hquotient h hne
  | ridders =>
    have hcoarse : h * nat 2 ≠ 0 := by simp [hne]
    have hfine : h / nat 2 ≠ 0 := by simp [hne]
    rw [extrapolate, hquotient _ hcoarse, hquotient _ hne, hquotient _ hfine]
    ext i
    simp only [Vec.get_mul, Vec.get_sub, nat_eq]
    ring

section

variable {f : Vec α n → Vec α m} {a : Mat α m n}

theorem IsAffine.jacobian (hf : IsAffine f a) (x : Vec α n) {options : Options α}
    (hspacing : options.spacing ≠ 0) :
  jacobian f x options = a
  := by
  ext i j
  rw [Numerics.jacobian, Mat.get_ofCols, Vec.get_ofFn,
    extrapolate_const hspacing (fun k hk => hf.columnQuotient x j hk), Mat.get_col]

/-- The Jacobian with a step of its own along each axis. -/
theorem IsAffine.scaledJacobian (hf : IsAffine f a) (x : Vec α n)
    (hstep : (cbrtEpsilon : α) ≠ 0) :
  scaledJacobian f x = a
  := by
  ext i j
  have hscale : cbrtEpsilon * maxNum (abs (x j)) 1 ≠ 0 := by
    rw [maxNum_eq]
    exact mul_ne_zero hstep (lt_max_of_lt_right one_pos).ne'
  rw [Numerics.scaledJacobian, Mat.get_ofCols, Vec.get_ofFn]
  simp only [hf.ahead_sub_behind, Vec.get_div, Vec.get_mul, Mat.get_col, nat_eq, ← two_mul]
  rw [Nat.cast_two, mul_div_cancel_right₀]
  exact mul_ne_zero two_ne_zero hscale

end

end Numerics
