import Mathlib.Algebra.Order.Field.Basic
import Mathlib.Analysis.SpecialFunctions.Pow.Real
import Numerics.Scalar.Basic

/-!
# Exact scalars

An `ExactScalar` type is a real scalar type that is computed with exactly: its arithmetic and its
order are those of a linearly ordered field, every scalar is a finite number, a constant is the
fraction it stands for, and the precision is any positive number. The scalars of an `ExactReal` type
have exact square roots as well.

Every linearly ordered field with a positive precision makes exact scalars, by
`ExactScalar.ofField`. The rational numbers are the instance to compute with, and the real numbers
have exact square roots.
-/

namespace Numerics

/-- Real scalars whose arithmetic and order are those of a linearly ordered field. -/
class FieldScalar (α : Type) extends
    Field α, LinearOrder α, IsStrictOrderedRing α, RealScalar α

/-- The functions and constants that a field does not have are what their names say. -/
class ExactFunctions (α : Type) [FieldScalar α] : Prop where
  beq_eq : ∀ a b : α, (a == b) = decide (a = b)
  abs_eq : ∀ a : α, abs a = |a|
  maxNum_eq : ∀ a b : α, maxNum a b = max a b
  isNaN_eq : ∀ a : α, isNaN a = false
  isFinite_eq : ∀ a : α, isFinite a = true
  epsilon_pos : 0 < (epsilon : α)
  ratio_eq : ∀ p q : Nat, ratio p q = (p / q : α)

/-- The square roots of nonnegative scalars are exact. -/
class ExactRoots (α : Type) [FieldScalar α] : Prop where
  sqrt_nonneg : ∀ a : α, 0 ≤ a → 0 ≤ sqrt a
  sqrt_mul_sqrt : ∀ a : α, 0 ≤ a → sqrt a * sqrt a = a

/-- Real scalars that are computed with exactly. -/
class ExactScalar (α : Type) extends FieldScalar α, ExactFunctions α

/-- Exact scalars with exact square roots. -/
class ExactReal (α : Type) extends ExactScalar α, ExactRoots α

export ExactFunctions (beq_eq abs_eq maxNum_eq isNaN_eq isFinite_eq epsilon_pos ratio_eq)
export ExactRoots (sqrt_nonneg sqrt_mul_sqrt)

attribute [simp] abs_eq maxNum_eq isNaN_eq isFinite_eq

section

variable {α : Type} [ExactScalar α]

@[simp]
theorem nat_eq (k : Nat) :
  (nat k : α) = k
  := by
  rw [nat, ratio_eq, Nat.cast_one, div_one]

@[simp]
theorem half_eq :
  (half : α) = 1 / 2
  := by
  rw [half, ratio_eq, Nat.cast_one, Nat.cast_two]

end

/-- The square root of a positive scalar is positive. -/
theorem sqrt_pos {α : Type} [ExactReal α] {a : α} (h : 0 < a) :
  0 < sqrt a
  := by
  apply lt_of_le_of_ne (sqrt_nonneg a h.le)
  intro hzero
  have hroot := sqrt_mul_sqrt a h.le
  rw [← hzero, mul_zero] at hroot
  exact h.ne hroot

/-! ### Instances -/

/-- The exact scalars made of a linearly ordered field and a positive precision `ε`, with any
functions for the roots. -/
@[reducible]
def ExactScalar.ofField (K : Type) [Field K] [LinearOrder K] [IsStrictOrderedRing K]
    (root : K → K) (rootEpsilon ε : K) (h : 0 < ε) : ExactScalar K where
  beq a b := decide (a = b)
  decidableLT := inferInstance
  decidableLE := inferInstance
  abs a := |a|
  sqrt := root
  maxNum := max
  isNaN _ := false
  isFinite _ := true
  epsilon := ε
  cbrtEpsilon := rootEpsilon
  ratio p q := p / q
  beq_eq _ _ := rfl
  abs_eq _ := rfl
  maxNum_eq _ _ := rfl
  isNaN_eq _ := rfl
  isFinite_eq _ := rfl
  epsilon_pos := h
  ratio_eq _ _ := rfl

/-- The rational numbers, with the precision of the double format and without square roots. -/
instance : ExactScalar ℚ :=
  .ofField ℚ id (1 / 2 ^ 17) (1 / 2 ^ 52) (by norm_num)

/-- The real numbers, with the precision of the double format. -/
noncomputable instance : ExactReal ℝ where
  toExactScalar :=
    .ofField ℝ Real.sqrt ((1 / 2 ^ 52 : ℝ) ^ (1 / 3 : ℝ)) (1 / 2 ^ 52) (by norm_num)
  sqrt_nonneg a _ := Real.sqrt_nonneg a
  sqrt_mul_sqrt _ h := Real.mul_self_sqrt h

theorem sqrt_epsilon :
  sqrt (epsilon : ℝ) = 1 / 2 ^ 26
  := by
  show Real.sqrt (1 / 2 ^ 52) = 1 / 2 ^ 26
  rw [Real.sqrt_eq_iff_mul_self_eq (by positivity) (by positivity)]
  norm_num

end Numerics
