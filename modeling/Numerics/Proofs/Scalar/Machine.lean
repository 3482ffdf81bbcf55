import Mathlib.Algebra.Order.Field.Basic
import Mathlib.Data.Prod.Lex
import Numerics.Proofs.Scalar.Numbers
import Numerics.Scalar.Machine

/-!
# Comparing machine numbers

The scalars of both machine formats unpack to an infinity, a zero, a finite number or no number, and
are compared as what they unpack to. All but the last are ranked in a linear order, by the sign, the
exponent and the mantissa, and the comparisons are those of the ranks. The two zeros have one rank.

So both formats have `OrderedNumbers`, and `<` is transitive on all of their scalars, since it never
holds where one of the two is not a number. What is proved under these hypotheses is true of the
formats as they are, with their rounding.
-/

namespace Numerics

open Float.Model (UnpackedFloat)
open Float.Model.UnpackedFloat

/-! ### Ranks -/

/-- Pairs are compared by their first parts, and then by their second. -/
theorem compare_toLex {β γ : Type} [LinearOrder β] [LinearOrder γ] (b b' : β) (c c' : γ) :
  compare (toLex (b, c)) (toLex (b', c')) = (compare b b').then (compare c c')
  := by
  rw [Prod.Lex.compare_def]
  rfl

theorem compare_natCast (m m' : Nat) :
  compare (m : ℤ) (m' : ℤ) = compare m m'
  := by
  rw [← cmp_eq_compare, ← cmp_eq_compare, Nat.strictMono_cast.cmp_map_eq]

theorem compare_neg (a b : ℤ) :
  compare (-a) (-b) = (compare a b).swap
  := by
  rw [← cmp_eq_compare, ← cmp_eq_compare, cmp_swap]
  apply StrictAnti.cmp_map_eq
  intro a b h
  exact neg_lt_neg h

/-- The place of a number in the order of numbers. -/
def rank : UnpackedFloat → ℤ ×ₗ ℤ ×ₗ ℤ
  | .infinity .negative => toLex (-2, toLex (0, 0))
  | .finite .negative mantissa exponent _ => toLex (-1, toLex (-exponent, -mantissa))
  | .zero _ => toLex (0, toLex (0, 0))
  | .finite .positive mantissa exponent _ => toLex (1, toLex (exponent, mantissa))
  | .infinity .positive => toLex (2, toLex (0, 0))
  | .notANumber => toLex (0, toLex (0, 0))

/-- Numbers are compared by their ranks. With one sign, the exponents and mantissas decide, and
below zero the other way round. -/
theorem compare_eq_rank {u v : UnpackedFloat} (hu : u.isNaN = false) (hv : v.isNaN = false) :
  u.compare v = some (compare (rank u) (rank v))
  := by
  cases u with
  | notANumber => cases hu
  | infinity s =>
    cases v with
    | notANumber => cases hv
    | infinity s' => cases s <;> cases s' <;> rfl
    | zero => cases s <;> rfl
    | finite s' => cases s <;> cases s' <;> rfl
  | zero =>
    cases v with
    | notANumber => cases hv
    | infinity s' => cases s' <;> rfl
    | zero => rfl
    | finite s' => cases s' <;> rfl
  | finite s m e =>
    cases v with
    | notANumber => cases hv
    | infinity s' => cases s <;> cases s' <;> rfl
    | zero => cases s <;> rfl
    | finite s' m' e' =>
      cases s
      case negative =>
        cases s'
        case negative =>
          show some ((compare e e').then (compare m m')).swap
            = some (compare (toLex (-1, toLex (-e, -(m : ℤ)))) (toLex (-1, toLex (-e', -(m' : ℤ)))))
          rw [compare_toLex, compare_toLex, compare_neg e, compare_neg m, compare_natCast,
            Ordering.swap_then]
          rfl
        case positive => rfl
      case positive =>
        cases s'
        case negative => rfl
        case positive =>
          show some ((compare e e').then (compare m m'))
            = some (compare (toLex (1, toLex (e, (m : ℤ)))) (toLex (1, toLex (e', (m' : ℤ)))))
          rw [compare_toLex, compare_toLex, compare_natCast]
          rfl

theorem compare_of_isNaN {u v : UnpackedFloat} (h : ¬ (u.isNaN = false ∧ v.isNaN = false)) :
  u.compare v = none
  := by
  cases u with
  | notANumber => cases v <;> rfl
  | _ =>
    cases v with
    | notANumber => rfl
    | _ => exact absurd ⟨rfl, rfl⟩ h

theorem lt_iff_rank (u v : UnpackedFloat) :
  u.lt v = true ↔ (u.isNaN = false ∧ v.isNaN = false) ∧ rank u < rank v
  := by
  rw [UnpackedFloat.lt]
  by_cases h : u.isNaN = false ∧ v.isNaN = false
  · rw [compare_eq_rank h.1 h.2, beq_iff_eq, Option.some_inj, compare_lt_iff_lt]
    exact (and_iff_right h).symm
  · rw [compare_of_isNaN h]
    exact iff_of_false Bool.false_ne_true fun hlt => h hlt.1

theorem le_iff_rank (u v : UnpackedFloat) :
  u.le v = true ↔ (u.isNaN = false ∧ v.isNaN = false) ∧ rank u ≤ rank v
  := by
  rw [UnpackedFloat.le]
  by_cases h : u.isNaN = false ∧ v.isNaN = false
  · rw [compare_eq_rank h.1 h.2, Option.any_some, Ordering.isLE_iff_ne_gt, ← not_lt,
      ← compare_gt_iff_gt]
    exact (and_iff_right h).symm
  · rw [compare_of_isNaN h]
    exact iff_of_false Bool.false_ne_true fun hle => h hle.1

/-! ### Formats -/

/-- The scalars of `α` are compared as what they unpack to. -/
structure ComparedAs (α : Type) [RealScalar α] (unpack : α → UnpackedFloat) : Prop where
  lt_iff : ∀ a b : α, a < b ↔ (unpack a).lt (unpack b) = true
  le_iff : ∀ a b : α, a ≤ b ↔ (unpack a).le (unpack b) = true
  isNaN_eq : ∀ a : α, isNaN a = (unpack a).isNaN

namespace ComparedAs

variable {α : Type} [RealScalar α] {unpack : α → UnpackedFloat}

theorem orderedNumbers (h : ComparedAs α unpack) :
  OrderedNumbers α
  := by
  have hnumber : ∀ a : α, IsNumber a → (unpack a).isNaN = false := by
    intro a ha
    rw [← h.isNaN_eq]
    exact ha
  constructor
  · intro a b ha hb
    rw [h.le_iff, h.le_iff, le_iff_rank, le_iff_rank]
    apply (le_total (rank (unpack a)) (rank (unpack b))).imp
    · intro hle
      exact ⟨⟨hnumber a ha, hnumber b hb⟩, hle⟩
    · intro hle
      exact ⟨⟨hnumber b hb, hnumber a ha⟩, hle⟩
  · intro a b c _ _ _ hab hbc
    rw [h.le_iff, le_iff_rank] at hab hbc ⊢
    exact ⟨⟨hab.1.1, hbc.1.2⟩, hab.2.trans hbc.2⟩
  · intro a b ha hb
    rw [h.lt_iff, h.le_iff, lt_iff_rank, le_iff_rank,
      and_iff_right ⟨hnumber a ha, hnumber b hb⟩, and_iff_right ⟨hnumber b hb, hnumber a ha⟩,
      not_le]

theorem isTrans (h : ComparedAs α unpack) :
  IsTrans α (· < ·)
  := by
  constructor
  intro a b c hab hbc
  rw [h.lt_iff, lt_iff_rank] at hab hbc ⊢
  exact ⟨⟨hab.1.1, hbc.1.2⟩, hab.2.trans hbc.2⟩

end ComparedAs

theorem comparedAs_double :
  ComparedAs Float fun a => a.toModel.unpack
  := by
  constructor
  · intro a b
    exact decide_eq_true_iff
  · intro a b
    exact decide_eq_true_iff
  · intro a
    rfl

theorem comparedAs_single :
  ComparedAs Float32 fun a => a.toModel.unpack
  := by
  constructor
  · intro a b
    exact decide_eq_true_iff
  · intro a b
    exact decide_eq_true_iff
  · intro a
    rfl

instance orderedNumbers_double : OrderedNumbers Float :=
  comparedAs_double.orderedNumbers

instance orderedNumbers_single : OrderedNumbers Float32 :=
  comparedAs_single.orderedNumbers

instance isTrans_double : IsTrans Float (· < ·) :=
  comparedAs_double.isTrans

instance isTrans_single : IsTrans Float32 (· < ·) :=
  comparedAs_single.isTrans

end Numerics
