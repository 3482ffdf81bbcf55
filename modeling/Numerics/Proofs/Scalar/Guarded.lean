import Mathlib.Algebra.Order.Field.Basic
import Numerics.Index
import Numerics.Mat.Basic

/-!
# Arithmetic in which a division by zero is trapped

A `Guarded` scalar is a scalar or a trap. It is computed with as scalars are, except that a division
by zero gives a trap, whatever it gives otherwise, and that what is computed from a trap is a trap.
A scalar counts as zero if it compares as equal to zero, as both zeros of a machine format do.

A method that is run on guarded scalars and ends without a trap has not divided by zero on the way
to any of its results.
-/

namespace Numerics

/-- The scalar `a` compares as equal to zero. -/
def IsZero {α : Type} [Scalar α] (a : α) : Prop :=
  (a == 0) = true

instance {α : Type} [Scalar α] (a : α) : Decidable (IsZero a) :=
  inferInstanceAs (Decidable (_ = true))

/-- A scalar, or what a division by zero leaves. -/
inductive Guarded (α : Type) where
  | value (a : α)
  | trap

namespace Guarded

variable {α : Type}

/-- The function `f`, to which a trap is a trap. -/
def map (f : α → α) : Guarded α → Guarded α
  | value a => value (f a)
  | trap => trap

/-- The operation `f`, to which a trap on either side is a trap. -/
def map₂ (f : α → α → α) : Guarded α → Guarded α → Guarded α
  | value a, value b => value (f a b)
  | _, _ => trap

/-- The test `f`, which fails on a trap. -/
def test (f : α → Bool) : Guarded α → Bool
  | value a => f a
  | trap => false

/-- The relation `r`, in which a trap stands to nothing. -/
def Related (r : α → α → Prop) : Guarded α → Guarded α → Prop
  | value a, value b => r a b
  | _, _ => False

instance {r : α → α → Prop} [∀ a b, Decidable (r a b)] (x y : Guarded α) :
    Decidable (Related r x y) :=
  match x, y with
  | value a, value b => inferInstanceAs (Decidable (r a b))
  | value _, trap => inferInstanceAs (Decidable False)
  | trap, _ => inferInstanceAs (Decidable False)

variable [RealScalar α]

/-- The quotient, which is a trap where the divisor is zero. -/
def quotient : Guarded α → Guarded α → Guarded α
  | value a, value b => if IsZero b then trap else value (a / b)
  | _, _ => trap

instance : RealScalar (Guarded α) where
  zero := value 0
  one := value 1
  add := map₂ (· + ·)
  sub := map₂ (· - ·)
  mul := map₂ (· * ·)
  div := quotient
  beq
    | value a, value b => a == b
    | _, _ => false
  neg := map (- ·)
  lt := Related (· < ·)
  le := Related (· ≤ ·)
  decidableLT := inferInstanceAs (∀ x y, Decidable (Related (· < ·) x y))
  decidableLE := inferInstanceAs (∀ x y, Decidable (Related (· ≤ ·) x y))
  abs := map abs
  sqrt := map sqrt
  maxNum := map₂ maxNum
  isNaN := test isNaN
  isFinite := test isFinite
  epsilon := value epsilon
  cbrtEpsilon := value cbrtEpsilon
  ratio p q := value (ratio p q)

theorem value_div (a : α) {b : α} (hb : ¬ IsZero b) :
  value a / value b = value (a / b)
  := if_neg hb

end Guarded

/-! ### Vectors and matrices -/

variable {α : Type} {m n : Nat}

/-- The vector `v` of guarded scalars. -/
def Vec.guarded (v : Vec α n) : Vec (Guarded α) n :=
  ofFn fun i => .value (v i)

@[simp]
theorem Vec.get_guarded (v : Vec α n) (i : Fin n) :
  v.guarded i = .value (v i)
  := get_ofFn _ i

/-- The matrix `a` of guarded scalars. -/
def Mat.guarded (a : Mat α m n) : Mat (Guarded α) m n :=
  ofFn fun i j => .value (a i j)

@[simp]
theorem Mat.get_guarded (a : Mat α m n) (i : Fin m) (j : Fin n) :
  a.guarded i j = .value (a i j)
  := get_ofFn _ i j

theorem Vec.set_guarded (v : Vec α n) (i : Fin n) (a : α) :
  v.guarded.set i (.value a) = (v.set i a).guarded
  := by
  ext j
  rw [get_set, get_guarded, get_guarded, get_set]
  split <;> rfl

theorem Mat.transpose_guarded (a : Mat α m n) :
  a.guarded.transpose = a.transpose.guarded
  := by
  ext i j
  rw [get_transpose, get_guarded, get_guarded, get_transpose]

variable [RealScalar α]

theorem Vec.axis_guarded (i : Fin n) :
  (Vec.axis i : Vec (Guarded α) n) = (Vec.axis i : Vec α n).guarded
  := by
  ext j
  rw [get_axis, get_guarded, get_axis]
  split <;> rfl

/-- What is solved for the unit vectors without a trap, if every right side is. -/
theorem Mat.ofCols_axis_guarded {f : Vec α n → Vec α n} {g : Vec (Guarded α) n → Vec (Guarded α) n}
    (h : ∀ b : Vec α n, g b.guarded = (f b).guarded) :
  ofCols (Vec.ofFn fun i => g (Vec.axis i)) = (ofCols (Vec.ofFn fun i => f (Vec.axis i))).guarded
  := by
  ext i j
  rw [get_guarded, get_ofCols, get_ofCols, Vec.get_ofFn, Vec.get_ofFn, Vec.axis_guarded, h,
    Vec.get_guarded]

theorem Mat.maxAbs_guarded (a : Mat α m n) :
  a.guarded.maxAbs = .value a.maxAbs
  := by
  symm
  apply foldl_hom Guarded.value
  intro acc j
  apply foldl_hom Guarded.value
  intro acc i
  rw [get_guarded]
  rfl

end Numerics
