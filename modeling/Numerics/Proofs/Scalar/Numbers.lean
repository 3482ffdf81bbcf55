import Numerics.Proofs.Scalar.Exact

/-!
# Comparing numbers

Rounding changes sums and products, but comparisons are exact: the scalars that are numbers are
totally ordered, where scalars that compare as equal may still differ, as two zeros do. This is all
that `OrderedNumbers` says. Nothing is said about arithmetic, nor about comparisons with a scalar
that is not a number.
-/

namespace Numerics

variable {α : Type} [RealScalar α]

/-- The scalar `a` is a number. -/
def IsNumber (a : α) : Prop :=
  isNaN a = false

/-- Comparisons of numbers are those of a total preorder. -/
class OrderedNumbers (α : Type) [RealScalar α] : Prop where
  le_total : ∀ a b : α, IsNumber a → IsNumber b → a ≤ b ∨ b ≤ a
  le_trans : ∀ a b c : α, IsNumber a → IsNumber b → IsNumber c → a ≤ b → b ≤ c → a ≤ c
  lt_iff_not_le : ∀ a b : α, IsNumber a → IsNumber b → (a < b ↔ ¬ b ≤ a)

instance {α : Type} [ExactScalar α] : OrderedNumbers α where
  le_total a b _ _ := LinearOrder.le_total a b
  le_trans a b c _ _ _ := Preorder.le_trans a b c
  lt_iff_not_le _ _ _ _ := lt_iff_not_ge

namespace IsNumber

variable [OrderedNumbers α] {a b c : α}

theorem le_refl (ha : IsNumber a) :
  a ≤ a
  := (OrderedNumbers.le_total a a ha ha).elim id id

theorem not_lt (ha : IsNumber a) (hb : IsNumber b) :
  ¬ a < b ↔ b ≤ a
  := by
  rw [OrderedNumbers.lt_iff_not_le a b ha hb, not_not]

theorem not_le (ha : IsNumber a) (hb : IsNumber b) :
  ¬ a ≤ b ↔ b < a
  := (OrderedNumbers.lt_iff_not_le b a hb ha).symm

theorem le_of_not_le (ha : IsNumber a) (hb : IsNumber b) (h : ¬ a ≤ b) :
  b ≤ a
  := (OrderedNumbers.le_total a b ha hb).resolve_left h

theorem le_of_lt (ha : IsNumber a) (hb : IsNumber b) (h : a < b) :
  a ≤ b
  := hb.le_of_not_le ha ((hb.not_le ha).mpr h)

end IsNumber

end Numerics
