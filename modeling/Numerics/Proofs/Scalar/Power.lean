import Mathlib.Algebra.Group.Basic
import Numerics.Scalar.Power

/-!
# Powers by squaring

In a monoid, squaring and multiplying computes the powers: reading the exponent from its lowest
binary digit up loses nothing.
-/

namespace Numerics

variable {α : Type} [Monoid α]

theorem mulPower_eq (acc x : α) (e : Nat) :
  mulPower acc x e = acc * x ^ e
  := by
  induction e using Nat.strongRecOn generalizing acc x with
  | ind e ih =>
    have hdigits : x ^ e = x ^ (e % 2) * (x * x) ^ (e / 2) := by
      rw [← pow_two, ← pow_mul, ← pow_add, Nat.mod_add_div]
    have hdigit : (if e % 2 = 1 then acc * x else acc) = acc * x ^ (e % 2) := by
      rcases Nat.mod_two_eq_zero_or_one e with h | h
      · rw [h, if_neg Nat.zero_ne_one, pow_zero, mul_one]
      · rw [h, if_pos rfl, pow_one]
    rw [mulPower, hdigit, hdigits, ← mul_assoc]
    split
    case isTrue h => rw [h, pow_zero, mul_one]
    case isFalse h =>
      apply ih
      omega

theorem natPower_eq (x : α) (e : Nat) :
  natPower x e = x ^ e
  := by
  rw [natPower, mulPower_eq, one_mul]

end Numerics
