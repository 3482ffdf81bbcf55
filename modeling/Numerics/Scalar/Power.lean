import Numerics.Scalar.Basic

/-!
# Powers

`natPower x e` and `intPower x e` are powers with whole exponents, computed by squaring and
multiplying. The exponent is read from its lowest binary digit up, the base is squared only while
digits remain, and a power with a negative exponent is the reciprocal of the one with the opposite
exponent.
-/

namespace Numerics

variable {α : Type}

/-- The product of `acc` and the power of `x` with exponent `e`, where `x` is squared once for each
binary digit of `e` after the lowest. -/
def mulPower [Mul α] (acc x : α) (e : Nat) : α :=
  let acc := if e % 2 = 1 then acc * x else acc
  if e / 2 = 0 then acc else mulPower acc (x * x) (e / 2)
termination_by e

/-- The power of `x` with the natural exponent `e`. -/
def natPower [One α] [Mul α] (x : α) (e : Nat) : α :=
  mulPower 1 x e

@[simp]
theorem natPower_zero [One α] [Mul α] (x : α) :
  natPower x 0 = 1
  := by
  rw [natPower, mulPower, if_pos (by decide), if_neg (by decide)]

/-- The power of `x` with a whole exponent. -/
def intPower [Scalar α] (x : α) : Int → α
  | .ofNat e => natPower x e
  | .negSucc e => 1 / natPower x (e + 1)

end Numerics
