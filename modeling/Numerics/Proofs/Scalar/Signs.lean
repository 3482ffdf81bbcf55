import Mathlib.Algebra.Order.Field.Basic
import Numerics.Index
import Numerics.Proofs.Scalar.Zeros

/-!
# Signs in machine formats

Rounding keeps signs. So what is found from scalars without a minus sign by multiplications,
divisions and `maxNum` has no minus sign either, and is not below zero if it is a number. Absolute
values and natural numbers have none.
-/

namespace Numerics

open Float.Model (UnpackedFloat Format)
open Float.Model.UnpackedFloat

variable {spec : Format} {b : BitVec spec.numBits} {u v : UnpackedFloat}

/-- No minus sign: a positive number, a positive infinity, the positive zero or no number. -/
def Unsigned : UnpackedFloat → Prop
  | .notANumber => True
  | .infinity s | .zero s | .finite s _ _ _ => s = .positive

theorem zero_le_of_unsigned (hu : Unsigned u) (hnumber : u.isNaN = false) :
  (UnpackedFloat.zero .positive).le u = true
  := by
  cases u with
  | notANumber => cases hnumber
  | infinity s =>
    obtain rfl : s = .positive := hu
    rfl
  | zero => rfl
  | finite s =>
    obtain rfl : s = .positive := hu
    rfl

/-! ### Packing -/

theorem unsigned_unpack (h : unpackSign b = Sign.positive.toBitVec) :
  Unsigned (unpack spec b)
  := by
  have hsign : Sign.ofBitVec (unpackSign b) = .positive := by
    rw [h]
    rfl
  obtain ⟨-, hb⟩ | ⟨-, -, hb⟩ | ⟨-, -, hb⟩ | ⟨-, m, e, hm, hb, -⟩ := unpack_cases b
  · rw [hb]
    exact hsign
  · rw [hb]
    trivial
  · rw [hb]
    exact hsign
  · rw [hb]
    exact hsign

/-- What is packed with a positive sign has no minus sign. -/
theorem unsigned_packComponents (exponent : BitVec spec.exponentBits)
    (mantissa : BitVec spec.mantissaBitsWithoutImplicit) :
  Unsigned (unpack spec (packComponents spec .positive exponent mantissa))
  := by
  apply unsigned_unpack
  ext i hi
  obtain rfl : i = 0 := Nat.lt_one_iff.mp hi
  unfold unpackSign packComponents
  simp [BitVec.getLsbD_append, BitVec.getElem_append]

theorem unsigned_unpack_pack (hu : Unsigned u) :
  Unsigned (unpack spec (pack spec u))
  := by
  cases u with
  | notANumber => apply unsigned_packComponents
  | infinity s =>
    obtain rfl : s = .positive := hu
    apply unsigned_packComponents
  | zero s =>
    obtain rfl : s = .positive := hu
    apply unsigned_packComponents
  | finite s m e hm =>
    obtain rfl : s = .positive := hu
    unfold pack
    dsimp only
    split
    · apply unsigned_packComponents
    · split
      · apply unsigned_packComponents
      · apply unsigned_packComponents

/-! ### Operations -/

/-- Rounding leads to a zero or to a finite number, and keeps the sign. -/
theorem roundWithAccuracy_cases (spec : Format) (s : Sign) (m : Nat) (e : ℤ) (acc : Accuracy) :
  roundWithAccuracy spec s m e acc = .zero s
    ∨ ∃ m' e' hm', roundWithAccuracy spec s m e acc = .finite s m' e' hm'
  := by
  let shifted := shiftToTargetExponent spec m e acc
  by_cases hzero :
    (shiftToTargetExponent spec shifted.1.roundedMantissa shifted.2 .exact).1.mantissa = 0
  · exact .inl (dif_pos hzero)
  · exact .inr ⟨_, _, _, dif_neg hzero⟩

theorem unsigned_roundWithAccuracy (m : Nat) (e : ℤ) (acc : Accuracy) :
  Unsigned (roundWithAccuracy spec .positive m e acc)
  := by
  obtain h | ⟨m', e', hm', h⟩ := roundWithAccuracy_cases spec .positive m e acc
  · rw [h]
    rfl
  · rw [h]
    rfl

theorem unsigned_mul (hu : Unsigned u) (hv : Unsigned v) :
  Unsigned (mul spec u v)
  := by
  cases u <;> cases v <;> first
    | trivial
    | obtain rfl := hu
      obtain rfl := hv
      first | trivial | rfl | apply unsigned_roundWithAccuracy

theorem unsigned_div (hu : Unsigned u) (hv : Unsigned v) :
  Unsigned (div spec u v)
  := by
  cases u <;> cases v <;> first
    | trivial
    | obtain rfl := hu
      obtain rfl := hv
      first | trivial | rfl | apply unsigned_roundWithAccuracy

theorem unsigned_abs (u : UnpackedFloat) :
  Unsigned u.abs
  := by
  cases u with
  | notANumber => trivial
  | _ => rfl

theorem unsigned_round (m : Nat) (e : ℤ) :
  Unsigned (round spec .positive m e)
  := unsigned_roundWithAccuracy _ _ _

theorem unsigned_ofNat (k : Nat) :
  Unsigned (ofNat spec k)
  := by
  unfold ofNat ofInt UnpackedFloat.normalize
  split
  case h_1 h => exact absurd (Int.compare_eq_lt.mp h) (Int.natCast_nonneg k).not_gt
  case h_2 => rfl
  case h_3 => apply unsigned_round

theorem unsigned_ofScientific (m : Nat) (e : ℤ) :
  Unsigned (ofScientific spec m e)
  := by
  unfold ofScientific
  by_cases hm : m = 0
  · rw [dif_pos hm]
    rfl
  · rw [dif_neg hm]
    refine iteInduction (motive := Unsigned) (fun _ => rfl) fun _ => ?_
    refine iteInduction (motive := Unsigned) (fun _ => rfl) fun _ => ?_
    apply iteInduction (motive := Unsigned)
    · exact fun _ => unsigned_mul (Eq.refl Sign.positive) (Eq.refl Sign.positive)
    · exact fun _ => unsigned_div (Eq.refl Sign.positive) (Eq.refl Sign.positive)

theorem unsigned_toFloat (k : Nat) :
  Unsigned k.toFloat.toModel.unpack
  := by
  show Unsigned (Float.ofScientific k false 0).toModel.unpack
  unfold Float.ofScientific
  split
  · apply unsigned_unpack_pack
    apply unsigned_mul
    · apply unsigned_unpack_pack
      apply unsigned_ofNat
    · show Unsigned (Float.ofBits 0x3FF0000000000000).toModel.unpack
      apply unsigned_unpack
      rfl
  · apply unsigned_unpack_pack
    apply unsigned_ofScientific

theorem isNaN_roundWithAccuracy (s : Sign) (m : Nat) (e : ℤ) (acc : Accuracy) :
  (roundWithAccuracy spec s m e acc).isNaN = false
  := by
  obtain h | ⟨m', e', hm', h⟩ := roundWithAccuracy_cases spec s m e acc
  · rw [h]
    rfl
  · rw [h]
    rfl

/-- The product of a finite number and any other number is one. -/
theorem isNaN_finite_mul (s : Sign) (m : Nat) (e : ℤ) (hm : 0 < m) (u : UnpackedFloat) :
  (mul spec (.finite s m e hm) u).isNaN = u.isNaN
  := by
  cases u with
  | finite => apply isNaN_roundWithAccuracy
  | _ => rfl

/-! ### Formats -/

namespace DividedAs

variable {α : Type} [RealScalar α] {unpacked : α → UnpackedFloat} {a c : α}

theorem nonneg (h : DividedAs α spec unpacked) (ha : Unsigned (unpacked a)) (hnumber : IsNumber a) :
  0 ≤ a
  := by
  rw [h.le_iff, h.zero_eq]
  rw [IsNumber, h.isNaN_eq] at hnumber
  apply zero_le_of_unsigned ha hnumber

theorem unsigned_product (h : DividedAs α spec unpacked) (ha : Unsigned (unpacked a))
    (hc : Unsigned (unpacked c)) :
  Unsigned (unpacked (a * c))
  := by
  rw [h.mul_eq]
  apply unsigned_unpack_pack
  apply unsigned_mul ha hc

/-- The larger of a scalar without a minus sign and of an absolute value has none. -/
theorem unsigned_maxNum_abs (h : DividedAs α spec unpacked) (ha : Unsigned (unpacked a)) (c : α) :
  Unsigned (unpacked (maxNum a (RealScalar.abs c)))
  := by
  have habs : Unsigned (unpacked (RealScalar.abs c)) := by
    rw [h.abs_eq]
    apply unsigned_unpack_pack
    apply unsigned_abs
  rw [h.maxNum_eq]
  split
  · exact habs
  · split
    · exact ha
    · split
      · exact habs
      · exact ha

/-- So the largest of some absolute values and zero is a number without a minus sign. -/
theorem unsigned_foldl_maxNum_abs {n : Nat} (h : DividedAs α spec unpacked) (hnumber : IsNumber a)
    (ha : Unsigned (unpacked a)) (f : Fin n → α) :
  IsNumber (Fin.foldl n (fun worst i => maxNum worst (RealScalar.abs (f i))) a)
    ∧ Unsigned (unpacked (Fin.foldl n (fun worst i => maxNum worst (RealScalar.abs (f i))) a))
  := by
  have := h.quietNaN
  constructor
  · exact (numbers_of_le _ _ (le_foldl_maxNum hnumber).1).2
  · apply foldl_induction (P := fun _ c => Unsigned (unpacked c)) ha
    intro i c hc
    apply h.unsigned_maxNum_abs hc

theorem number_zero_unsigned (h : DividedAs α spec unpacked) :
  IsNumber (0 : α) ∧ Unsigned (unpacked 0)
  := by
  rw [IsNumber, h.isNaN_eq, h.zero_eq]
  exact ⟨rfl, rfl⟩

end DividedAs

/-- In double precision natural numbers have no minus sign. -/
theorem unsigned_nat (k : Nat) :
  Unsigned (nat k : Float).toModel.unpack
  := by
  apply unsigned_unpack_pack
  apply unsigned_div
  · apply unsigned_toFloat
  · apply unsigned_toFloat

theorem exists_epsilon_double :
  ∃ m e hm, (epsilon : Float).toModel.unpack = .finite .positive m e hm
  := ⟨2 ^ 52, -104, by decide, rfl⟩

end Numerics
