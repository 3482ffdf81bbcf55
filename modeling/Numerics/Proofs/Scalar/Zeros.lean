import Mathlib.Algebra.Order.Field.Basic
import Mathlib.Data.Nat.Sqrt
import Numerics.Proofs.Scalar.Guarded
import Numerics.Proofs.Scalar.QuietNaN

/-!
# Zeros of machine formats

Each machine format has two zeros, which compare as equal. The absolute value of either is the
positive one. Rounding makes zeros of small products and quotients, but never of a square root: the
exponent of the root of a positive number is about half that of the number, which is well within the
range of the format.
-/

namespace Numerics

open Float.Model (UnpackedFloat Format totalExponent)
open Float.Model.UnpackedFloat

variable {spec : Format} {b : BitVec spec.numBits} {s : Sign} {m : Nat} {e : ℤ}

/-! ### Exponents -/

theorem minExponent_nonpos (spec : Format) :
  spec.minExponent ≤ 0
  := by
  have hmantissa := spec.hm
  rw [minExponent_eq]
  omega

/-- No exponent of a number of the format is below the least one. -/
theorem minExponent_le_of_unpack {hm : 0 < m} (h : unpack spec b = .finite s m e hm) :
  spec.minExponent ≤ e
  := by
  obtain ⟨-, hb⟩ | ⟨-, -, hb⟩ | ⟨-, -, hb⟩ | ⟨-, m', e', hm', hb, hle⟩ := unpack_cases b
  · cases hb.symm.trans h
  · cases hb.symm.trans h
  · cases hb.symm.trans h
  · cases hb.symm.trans h
    exact hle

/-! ### Rounding -/

theorem mantissa_shiftRight (x : ExtendedMantissa) (k : Nat) :
  (x >>> k).mantissa = x.mantissa / 2 ^ k
  := by
  show (k.repeat ExtendedMantissa.shiftRightOne x).mantissa = _
  induction k with
  | zero =>
    rw [pow_zero, Nat.div_one]
    rfl
  | succ k ih =>
    rw [pow_succ, ← Nat.div_div_eq_div_mul, ← ih]
    rfl

theorem mantissa_le_roundedMantissa (x : ExtendedMantissa) :
  x.mantissa ≤ x.roundedMantissa
  := by
  obtain ⟨m, round, sticky⟩ := x
  cases round <;> cases sticky
  · exact le_refl m
  · exact le_refl m
  · exact Nat.le_add_right m (m % 2)
  · exact Nat.le_add_right m 1

/-- A positive mantissa that is shifted to its exponent stays positive, if the exponent does not
start below the least one, and fits into the format then. -/
theorem shiftToTargetExponent_spec (hm : 0 < m) (he : spec.minExponent ≤ e) (acc : Accuracy) :
  0 < (shiftToTargetExponent spec m e acc).1.mantissa
    ∧ (shiftToTargetExponent spec m e acc).1.mantissa < 2 ^ spec.mantissaBits
    ∧ spec.minExponent ≤ (shiftToTargetExponent spec m e acc).2
  := by
  obtain ⟨k, hk⟩ : ∃ k, k = (spec.targetExponent (totalExponent m e) - e).toNat := ⟨_, rfl⟩
  have hmantissa : (shiftToTargetExponent spec m e acc).1.mantissa = m / 2 ^ k := by
    rw [shiftToTargetExponent, shiftToExponent, mantissa_shiftRight, hk]
    cases acc with
    | exact => rfl
    | inexact o => cases o <;> rfl
  have hshift : k ≤ m.log2 ∧ m.log2 + 1 ≤ k + spec.mantissaBits := by
    have hbits : spec.mantissaBits = 1 + spec.mantissaBitsWithoutImplicit := rfl
    rw [Format.targetExponent, totalExponent] at hk
    omega
  rw [hmantissa]
  refine ⟨?_, ?_, ?_⟩
  · apply Nat.div_pos _ (Nat.two_pow_pos k)
    calc 2 ^ k
      _ ≤ 2 ^ m.log2 := Nat.pow_le_pow_right Nat.two_pos hshift.1
      _ ≤ m := Nat.log2_self_le hm.ne'
  · apply Nat.div_lt_of_lt_mul
    calc m
      _ < 2 ^ (m.log2 + 1) := Nat.lt_log2_self
      _ ≤ 2 ^ (k + spec.mantissaBits) := Nat.pow_le_pow_right Nat.two_pos hshift.2
      _ = 2 ^ k * 2 ^ spec.mantissaBits := pow_add 2 k spec.mantissaBits
  · apply he.trans
    apply Int.le_add_of_nonneg_right
    apply Int.natCast_nonneg

/-- A positive mantissa whose exponent is not below the least one is not rounded to zero. -/
theorem exists_roundWithAccuracy (hm : 0 < m) (he : spec.minExponent ≤ e) (acc : Accuracy) :
  ∃ m' e' hm', roundWithAccuracy spec s m e acc = .finite s m' e' hm'
    ∧ m' < 2 ^ spec.mantissaBits ∧ spec.minExponent ≤ e'
  := by
  obtain ⟨hpos, -, hexponent⟩ := shiftToTargetExponent_spec hm he acc
  have hrounded := hpos.trans_le (mantissa_le_roundedMantissa _)
  obtain ⟨hpos', hlt, hexponent'⟩ := shiftToTargetExponent_spec hrounded hexponent .exact
  exact ⟨_, _, hpos', dif_neg hpos'.ne', hlt, hexponent'⟩

/-- The root of a positive number of the format is not rounded to zero. -/
theorem exists_unpacked_sqrt (hm : 0 < m) (he : spec.minExponent ≤ e) :
  ∃ m' e' hm', UnpackedFloat.sqrt spec (.finite .positive m e hm) = .finite .positive m' e' hm'
    ∧ m' < 2 ^ spec.mantissaBits ∧ spec.minExponent ≤ e'
  := by
  apply exists_roundWithAccuracy
  · apply Nat.sqrt_pos.mpr
    rw [Nat.shiftLeft_eq]
    apply Nat.mul_pos hm (Nat.two_pow_pos _)
  · have hnonpos := minExponent_nonpos spec
    have hhalf : spec.minExponent ≤ e.ediv 2 := by
      show spec.minExponent ≤ e / 2
      omega
    apply le_min hhalf
    apply le_max_right

/-! ### Packing -/

/-- What unpacks to zero has no bit set but perhaps the sign. -/
theorem fields_of_unpack_eq_zero (h : unpack spec b = .zero s) :
  unpackExponent b = 0 ∧ unpackMantissa b = 0
  := by
  obtain ⟨-, hb⟩ | ⟨-, -, hb⟩ | ⟨hexponent, hmantissa, -⟩ | ⟨-, m', e', hm', hb, -⟩ :=
    unpack_cases b
  · cases hb.symm.trans h
  · cases hb.symm.trans h
  · exact ⟨hexponent, hmantissa⟩
  · cases hb.symm.trans h

theorem packedInfinity_ne_zero (s s' : Sign) :
  unpack spec (packedInfinity spec s) ≠ .zero s'
  := by
  intro h
  have hones := (fields_of_unpack_eq_zero h).1
  rw [packedInfinity, unpackExponent_packComponents, BitVec.neg_one_eq_allOnes] at hones
  apply ofNat_ne_allOnes (e := 0) (Nat.one_lt_two_pow spec.he.ne') hones.symm

theorem ofNat_ne_zero {w k : Nat} (hk : 0 < k) (hlt : k < 2 ^ w) :
  BitVec.ofNat w k ≠ 0
  := by
  intro h
  have hnat := congrArg BitVec.toNat h
  rw [BitVec.toNat_ofNat, Nat.mod_eq_of_lt hlt] at hnat
  exact hk.ne' hnat

/-- A finite number of the format is not packed as a zero. -/
theorem unpack_pack_finite_ne_zero {hm : 0 < m} (hlt : m < 2 ^ spec.mantissaBits)
    (he : spec.minExponent ≤ e) (s' : Sign) :
  unpack spec (pack spec (.finite s m e hm)) ≠ .zero s'
  := by
  unfold pack
  dsimp only
  split
  case isTrue => apply packedInfinity_ne_zero
  case isFalse hsmall =>
    intro h
    split at h
    case isTrue =>
      have hzero := (fields_of_unpack_eq_zero h).1
      rw [unpackExponent_packComponents] at hzero
      rw [minExponent_eq] at he
      apply ofNat_ne_zero (by omega) (by omega) hzero
    case isFalse hlog =>
      have hzero := (fields_of_unpack_eq_zero h).2
      rw [unpackMantissa_packComponents] at hzero
      have hbits : spec.mantissaBits = 1 + spec.mantissaBitsWithoutImplicit := rfl
      have hlog' := (Nat.log2_lt hm.ne').mpr hlt
      apply ofNat_ne_zero hm ((Nat.log2_lt hm.ne').mp (by omega)) hzero

/-! ### Operations -/

variable {u v : UnpackedFloat}

theorem numbers_of_unpacked_div (h : (div spec u v).isNaN = false) :
  u.isNaN = false ∧ v.isNaN = false
  := by
  cases u <;> cases v <;> first | exact ⟨rfl, rfl⟩ | cases h

theorem unpacked_beq_zero_iff (u : UnpackedFloat) :
  u.beq (.zero .positive) = true ↔ ∃ s, u = .zero s
  := by
  constructor
  · intro h
    cases u with
    | notANumber => cases h
    | infinity s => cases s <;> cases h
    | zero s => use s
    | finite s => cases s <;> cases h
  · rintro ⟨s, rfl⟩
    rfl

/-- The root of what is above zero is a number, and is not packed as a zero. -/
theorem unpacked_sqrt_of_pos (hu : u = unpack spec b)
    (hpos : (UnpackedFloat.zero .positive).lt u = true) :
  (UnpackedFloat.sqrt spec u).isNaN = false
    ∧ ∀ s, unpack spec (pack spec (UnpackedFloat.sqrt spec u)) ≠ .zero s
  := by
  cases u with
  | notANumber => cases hpos
  | infinity s =>
    cases s with
    | negative => cases hpos
    | positive => exact ⟨rfl, packedInfinity_ne_zero .positive⟩
  | zero => cases hpos
  | finite s m e hm =>
    cases s with
    | negative => cases hpos
    | positive =>
      obtain ⟨m', e', hm', hroot, hlt, he⟩ :=
        exists_unpacked_sqrt hm (minExponent_le_of_unpack hu.symm)
      rw [hroot]
      exact ⟨rfl, unpack_pack_finite_ne_zero hlt he⟩

/-! ### Formats -/

/-- The square root of a positive scalar is a number other than zero. -/
class PositiveRoots (α : Type) [RealScalar α] : Prop where
  number_sqrt : ∀ a : α, 0 < a → IsNumber (sqrt a)
  sqrt_not_isZero : ∀ a : α, 0 < a → ¬ IsZero (sqrt a)

instance positiveRoots_exact {α : Type} [ExactReal α] : PositiveRoots α where
  number_sqrt a _ := isNumber_exact (sqrt a)
  sqrt_not_isZero a ha := by
    rw [IsZero, beq_eq, decide_eq_true_iff]
    exact (sqrt_pos ha).ne'

/-- The scalars of `α` are divided and compared as what they unpack to, and every scalar unpacks as
some bits do. -/
structure DividedAs (α : Type) [RealScalar α] (spec : Format) (unpacked : α → UnpackedFloat) : Prop
    extends PackedAs α spec unpacked where
  div_eq : ∀ a b : α,
    unpacked (a / b) = unpack spec (pack spec (div spec (unpacked a) (unpacked b)))
  beq_eq : ∀ a b : α, (a == b) = (unpacked a).beq (unpacked b)
  zero_eq : unpacked 0 = .zero .positive
  abs_of_zero : ∀ (a : α) (s : Sign), unpacked a = .zero s → RealScalar.abs a = 0
  exists_bits : ∀ a : α, ∃ b, unpacked a = unpack spec b

namespace DividedAs

variable {α : Type} [RealScalar α] {unpacked : α → UnpackedFloat}

theorem isZero_iff (h : DividedAs α spec unpacked) (a : α) :
  IsZero a ↔ ∃ s, unpacked a = .zero s
  := by
  rw [IsZero, h.beq_eq, h.zero_eq, unpacked_beq_zero_iff]

theorem abs_of_isZero (h : DividedAs α spec unpacked) {a : α} (ha : IsZero a) :
  RealScalar.abs a = 0
  := by
  obtain ⟨s, hs⟩ := (h.isZero_iff a).mp ha
  apply h.abs_of_zero a s hs

theorem numbers_of_div (h : DividedAs α spec unpacked) {a b : α} (hab : IsNumber (a / b)) :
  IsNumber a ∧ IsNumber b
  := by
  rw [IsNumber, h.isNaN_eq, h.div_eq, isNaN_unpack_pack] at hab
  rw [IsNumber, IsNumber, h.isNaN_eq, h.isNaN_eq]
  apply numbers_of_unpacked_div hab

theorem positiveRoots (h : DividedAs α spec unpacked) :
  PositiveRoots α
  := by
  have hroot : ∀ a : α, 0 < a → (UnpackedFloat.sqrt spec (unpacked a)).isNaN = false
      ∧ ∀ s, unpack spec (pack spec (UnpackedFloat.sqrt spec (unpacked a))) ≠ .zero s := by
    intro a ha
    rw [h.lt_iff, h.zero_eq] at ha
    obtain ⟨b, hb⟩ := h.exists_bits a
    apply unpacked_sqrt_of_pos hb ha
  constructor
  · intro a ha
    rw [IsNumber, h.isNaN_eq, h.sqrt_eq, isNaN_unpack_pack]
    exact (hroot a ha).1
  · intro a ha hzero
    obtain ⟨s, hs⟩ := (h.isZero_iff _).mp hzero
    rw [h.sqrt_eq] at hs
    apply (hroot a ha).2 s hs

end DividedAs

theorem dividedAs_double :
  DividedAs Float .binary64 fun a => a.toModel.unpack
  where
  toPackedAs := packedAs_double
  div_eq _ _ := rfl
  beq_eq _ _ := rfl
  zero_eq := rfl
  abs_of_zero a s h := by
    have habs : RealScalar.abs a = .ofModel (.pack a.toModel.unpack.abs) := rfl
    rw [habs, h]
    rfl
  exists_bits _ := ⟨_, rfl⟩

theorem dividedAs_single :
  DividedAs Float32 .binary32 fun a => a.toModel.unpack
  where
  toPackedAs := packedAs_single
  div_eq _ _ := rfl
  beq_eq _ _ := rfl
  zero_eq := rfl
  abs_of_zero a s h := by
    have habs : RealScalar.abs a = .ofModel (.pack a.toModel.unpack.abs) := rfl
    rw [habs, h]
    rfl
  exists_bits _ := ⟨_, rfl⟩

instance positiveRoots_double : PositiveRoots Float :=
  dividedAs_double.positiveRoots

instance positiveRoots_single : PositiveRoots Float32 :=
  dividedAs_single.positiveRoots

end Numerics
