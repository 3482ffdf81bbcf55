import Mathlib.Algebra.Order.Field.Basic
import Mathlib.Tactic.Ring
import Numerics.Index
import Numerics.Proofs.Scalar.Machine
import Numerics.Scalar.Power
import Numerics.Vec

/-!
# Scalars that are not numbers

A scalar that is not a number spreads: a sum, a product or a root with it is not a number, and no
comparison with it holds. Only the larger of two scalars may be a number where one of them is not.
This is all that `QuietNaN` says. Exact scalars have it, where there is nothing to spread, and so do
both machine formats.

So a result that is a number vouches for everything that it was computed from, except for what went
through `maxNum`. This is how a fold is read here: each of its steps was a number, if the end is.
-/

namespace Numerics

variable {α : Type} {n : Nat}

/-- What is computed from a scalar that is not a number is not a number, except by `maxNum`. -/
class QuietNaN (α : Type) [RealScalar α] : Prop extends OrderedNumbers α where
  numbers_of_lt : ∀ a b : α, a < b → IsNumber a ∧ IsNumber b
  numbers_of_le : ∀ a b : α, a ≤ b → IsNumber a ∧ IsNumber b
  numbers_of_add : ∀ a b : α, IsNumber (a + b) → IsNumber a ∧ IsNumber b
  numbers_of_sub : ∀ a b : α, IsNumber (a - b) → IsNumber a ∧ IsNumber b
  numbers_of_mul : ∀ a b : α, IsNumber (a * b) → IsNumber a ∧ IsNumber b
  number_of_sqrt : ∀ a : α, IsNumber (sqrt a) → IsNumber a
  number_abs_iff : ∀ a : α, IsNumber (abs a) ↔ IsNumber a
  number_zero : IsNumber (0 : α)
  le_maxNum_left : ∀ a b : α, IsNumber a → a ≤ maxNum a b
  le_maxNum_right : ∀ a b : α, IsNumber b → b ≤ maxNum a b

export QuietNaN (numbers_of_lt numbers_of_le numbers_of_add numbers_of_sub numbers_of_mul
  number_of_sqrt number_abs_iff number_zero le_maxNum_left le_maxNum_right)

theorem isNumber_exact [ExactScalar α] (a : α) :
  IsNumber a
  := isNaN_eq a

instance quietNaN_exact [ExactScalar α] : QuietNaN α where
  numbers_of_lt a b _ := ⟨isNumber_exact a, isNumber_exact b⟩
  numbers_of_le a b _ := ⟨isNumber_exact a, isNumber_exact b⟩
  numbers_of_add a b _ := ⟨isNumber_exact a, isNumber_exact b⟩
  numbers_of_sub a b _ := ⟨isNumber_exact a, isNumber_exact b⟩
  numbers_of_mul a b _ := ⟨isNumber_exact a, isNumber_exact b⟩
  number_of_sqrt a _ := isNumber_exact a
  number_abs_iff a := iff_of_true (isNumber_exact _) (isNumber_exact a)
  number_zero := isNumber_exact 0
  le_maxNum_left a b _ := (maxNum_eq a b).symm ▸ le_max_left a b
  le_maxNum_right a b _ := (maxNum_eq a b).symm ▸ le_max_right a b

/-! ### Machine formats -/

section

open Float.Model (UnpackedFloat Format)
open Float.Model.UnpackedFloat

variable {spec : Format}

theorem minExponent_eq (spec : Format) :
  spec.minExponent = 1 - spec.exponentBias - spec.mantissaBitsWithoutImplicit
  := by
  have hpow := Nat.two_pow_pos (spec.exponentBits - 1)
  unfold Format.minExponent Format.exponentBias Format.mantissaBits
  push_cast [hpow]
  ring

/-- Bits unpack to an infinity, to what is not a number, to a zero or to a finite number. What is
not a number has all ones in its exponent, as an infinity has, and another mantissa. A zero has no
bit set but perhaps the sign. No exponent of a finite number is below the least one. -/
theorem unpack_cases (b : BitVec spec.numBits) :
  unpackMantissa b = 0 ∧ unpack spec b = .infinity (.ofBitVec (unpackSign b))
    ∨ unpackExponent b = .allOnes _ ∧ unpackMantissa b ≠ 0 ∧ unpack spec b = .notANumber
    ∨ unpackExponent b = 0 ∧ unpackMantissa b = 0
      ∧ unpack spec b = .zero (.ofBitVec (unpackSign b))
    ∨ unpackExponent b ≠ .allOnes _
      ∧ ∃ m e hm, unpack spec b = .finite (.ofBitVec (unpackSign b)) m e hm ∧ spec.minExponent ≤ e
  := by
  rw [minExponent_eq]
  unfold unpack
  dsimp only
  rw [BitVec.neg_one_eq_allOnes]
  by_cases hones : unpackExponent b = .allOnes _
  · rw [if_pos hones]
    by_cases hmantissa : unpackMantissa b = 0#_
    · rw [if_pos hmantissa]
      exact .inl ⟨hmantissa, rfl⟩
    · rw [if_neg hmantissa]
      exact .inr (.inl ⟨hones, hmantissa, rfl⟩)
  · rw [if_neg hones]
    right
    right
    by_cases hexponent : unpackExponent b = 0#_
    · rw [if_pos hexponent]
      by_cases hmantissa : unpackMantissa b = 0#_
      · rw [dif_pos hmantissa]
        exact .inl ⟨hexponent, hmantissa, rfl⟩
      · rw [dif_neg hmantissa]
        generalize_proofs hm
        refine .inr ⟨hones, _, _, hm, rfl, ?_⟩
        rw [hexponent, BitVec.toNat_ofNat, Nat.zero_mod]
        omega
    · rw [if_neg hexponent]
      have hpos := BitVec.toNat_pos_of_ne_zero hexponent
      generalize_proofs hm
      refine .inr ⟨hones, _, _, hm, rfl, ?_⟩
      omega

theorem isNaN_unpack_iff (b : BitVec spec.numBits) :
  (unpack spec b).isNaN = true ↔ unpackExponent b = .allOnes _ ∧ unpackMantissa b ≠ .ofNat _ 0
  := by
  obtain ⟨hzero, hb⟩ | ⟨hones, hmantissa, hb⟩ | ⟨-, hzero, hb⟩ | ⟨hones, m, e, hm, hb, -⟩ :=
    unpack_cases b
  · rw [hb]
    exact iff_of_false Bool.false_ne_true fun h => h.2 hzero
  · rw [hb]
    exact iff_of_true rfl ⟨hones, hmantissa⟩
  · rw [hb]
    exact iff_of_false Bool.false_ne_true fun h => h.2 hzero
  · rw [hb]
    exact iff_of_false Bool.false_ne_true fun h => hones h.1

theorem ofNat_ne_allOnes {w e : Nat} (h : e + 1 < 2 ^ w) :
  BitVec.ofNat w e ≠ .allOnes w
  := by
  intro heq
  have hnat := congrArg BitVec.toNat heq
  rw [BitVec.toNat_ofNat, BitVec.toNat_allOnes, Nat.mod_eq_of_lt (by omega)] at hnat
  omega

theorem twoPow_ne_zero {w i : Nat} (h : i < w) :
  BitVec.twoPow w i ≠ 0
  := by
  intro heq
  have hnat := congrArg BitVec.toNat heq
  rw [BitVec.toNat_twoPow, Nat.mod_eq_of_lt (Nat.pow_lt_pow_right Nat.one_lt_two h)] at hnat
  exact (Nat.two_pow_pos i).ne' hnat

/-- Packing makes no number of what is none, and keeps numbers, if only as infinities. -/
theorem isNaN_unpack_pack (u : UnpackedFloat) :
  (unpack spec (pack spec u)).isNaN = u.isNaN
  := by
  have hexponent := Nat.one_lt_two_pow spec.he.ne'
  rw [Bool.eq_iff_iff, isNaN_unpack_iff]
  cases u with
  | notANumber =>
    have hones : unpackExponent (packedNaN spec) = .allOnes _ :=
      unpackExponent_packComponents.trans BitVec.neg_one_eq_allOnes
    have hmantissa : unpackMantissa (packedNaN spec)
        = .twoPow _ (spec.mantissaBitsWithoutImplicit - 1) :=
      unpackMantissa_packComponents.trans (BitVec.twoPow_eq _ _).symm
    refine iff_of_true ⟨hones, ?_⟩ rfl
    show unpackMantissa (packedNaN spec) ≠ .ofNat _ 0
    rw [hmantissa]
    apply twoPow_ne_zero
    apply Nat.sub_one_lt_of_lt spec.hm
  | infinity s =>
    apply iff_of_false _ Bool.false_ne_true
    exact fun h => h.2 unpackMantissa_packComponents
  | zero s =>
    apply iff_of_false _ Bool.false_ne_true
    exact fun h => h.2 unpackMantissa_packComponents
  | finite s m e hm =>
    apply iff_of_false _ Bool.false_ne_true
    unfold pack
    dsimp only
    split
    case isTrue =>
      rw [packedInfinity, unpackMantissa_packComponents]
      exact fun h => h.2 rfl
    case isFalse hsmall =>
      split
      case isTrue =>
        rw [unpackExponent_packComponents]
        exact fun h => ofNat_ne_allOnes (by omega) h.1
      case isFalse =>
        rw [unpackExponent_packComponents]
        exact fun h => ofNat_ne_allOnes (by omega) h.1

/-! The operations on what is unpacked spread what is not a number. -/

variable {u v : UnpackedFloat}

theorem numbers_of_unpacked_add (h : (add spec u v).isNaN = false) :
  u.isNaN = false ∧ v.isNaN = false
  := by
  cases u <;> cases v <;> first | exact ⟨rfl, rfl⟩ | cases h

theorem numbers_of_unpacked_sub (h : (sub spec u v).isNaN = false) :
  u.isNaN = false ∧ v.isNaN = false
  := by
  cases u <;> cases v <;> first | exact ⟨rfl, rfl⟩ | cases h

theorem numbers_of_unpacked_mul (h : (mul spec u v).isNaN = false) :
  u.isNaN = false ∧ v.isNaN = false
  := by
  cases u <;> cases v <;> first | exact ⟨rfl, rfl⟩ | cases h

theorem number_of_unpacked_sqrt (h : (UnpackedFloat.sqrt spec u).isNaN = false) :
  u.isNaN = false
  := by
  cases u <;> first | rfl | cases h

theorem isNaN_unpacked_abs (u : UnpackedFloat) :
  u.abs.isNaN = u.isNaN
  := by
  cases u <;> rfl

/-- The scalars of `α` are computed with as what they unpack to, and the results are packed. -/
structure PackedAs (α : Type) [RealScalar α] (spec : Format) (unpacked : α → UnpackedFloat) : Prop
    extends ComparedAs α unpacked where
  add_eq : ∀ a b : α,
    unpacked (a + b) = unpack spec (pack spec (add spec (unpacked a) (unpacked b)))
  sub_eq : ∀ a b : α,
    unpacked (a - b) = unpack spec (pack spec (sub spec (unpacked a) (unpacked b)))
  mul_eq : ∀ a b : α,
    unpacked (a * b) = unpack spec (pack spec (mul spec (unpacked a) (unpacked b)))
  sqrt_eq : ∀ a : α,
    unpacked (RealScalar.sqrt a) = unpack spec (pack spec (UnpackedFloat.sqrt spec (unpacked a)))
  abs_eq : ∀ a : α, unpacked (RealScalar.abs a) = unpack spec (pack spec (unpacked a).abs)
  isNaN_zero : (unpacked 0).isNaN = false
  maxNum_eq : ∀ a b : α,
    maxNum a b = if isNaN a then b else if isNaN b then a else if a < b then b else a

theorem PackedAs.quietNaN {unpacked : α → UnpackedFloat} [RealScalar α]
    (h : PackedAs α spec unpacked) :
  QuietNaN α
  := by
  have := h.orderedNumbers
  have hnumber : ∀ a : α, IsNumber a ↔ (unpacked a).isNaN = false := by
    intro a
    rw [IsNumber, h.isNaN_eq]
  constructor
  case numbers_of_lt =>
    intro a b hlt
    rw [hnumber, hnumber]
    exact ((lt_iff_rank _ _).mp ((h.lt_iff a b).mp hlt)).1
  case numbers_of_le =>
    intro a b hle
    rw [hnumber, hnumber]
    exact ((le_iff_rank _ _).mp ((h.le_iff a b).mp hle)).1
  case numbers_of_add =>
    intro a b hsum
    rw [hnumber, h.add_eq, isNaN_unpack_pack] at hsum
    rw [hnumber, hnumber]
    apply numbers_of_unpacked_add hsum
  case numbers_of_sub =>
    intro a b hdifference
    rw [hnumber, h.sub_eq, isNaN_unpack_pack] at hdifference
    rw [hnumber, hnumber]
    apply numbers_of_unpacked_sub hdifference
  case numbers_of_mul =>
    intro a b hproduct
    rw [hnumber, h.mul_eq, isNaN_unpack_pack] at hproduct
    rw [hnumber, hnumber]
    apply numbers_of_unpacked_mul hproduct
  case number_of_sqrt =>
    intro a hroot
    rw [hnumber, h.sqrt_eq, isNaN_unpack_pack] at hroot
    rw [hnumber]
    apply number_of_unpacked_sqrt hroot
  case number_abs_iff =>
    intro a
    rw [hnumber, hnumber, h.abs_eq, isNaN_unpack_pack, isNaN_unpacked_abs]
  case number_zero =>
    rw [hnumber, h.isNaN_zero]
  case le_maxNum_left =>
    intro a b ha
    rw [h.maxNum_eq, if_neg (Bool.eq_false_iff.mp ha)]
    split
    case isTrue => apply ha.le_refl
    case isFalse hb =>
      split
      case isTrue hlt => apply ha.le_of_lt (Bool.eq_false_iff.mpr hb) hlt
      case isFalse => apply ha.le_refl
  case le_maxNum_right =>
    intro a b hb
    rw [h.maxNum_eq]
    split
    case isTrue => apply hb.le_refl
    case isFalse ha =>
      rw [if_neg (Bool.eq_false_iff.mp hb)]
      split
      case isTrue => apply hb.le_refl
      case isFalse hlt => exact (IsNumber.not_lt (Bool.eq_false_iff.mpr ha) hb).mp hlt

theorem packedAs_double :
  PackedAs Float .binary64 fun a => a.toModel.unpack
  where
  toComparedAs := comparedAs_double
  add_eq _ _ := rfl
  sub_eq _ _ := rfl
  mul_eq _ _ := rfl
  sqrt_eq _ := rfl
  abs_eq _ := rfl
  isNaN_zero := by decide +kernel
  maxNum_eq _ _ := rfl

theorem packedAs_single :
  PackedAs Float32 .binary32 fun a => a.toModel.unpack
  where
  toComparedAs := comparedAs_single
  add_eq _ _ := rfl
  sub_eq _ _ := rfl
  mul_eq _ _ := rfl
  sqrt_eq _ := rfl
  abs_eq _ := rfl
  isNaN_zero := by decide +kernel
  maxNum_eq _ _ := rfl

instance quietNaN_double : QuietNaN Float :=
  packedAs_double.quietNaN

instance quietNaN_single : QuietNaN Float32 :=
  packedAs_single.quietNaN

end

/-! ### Order -/

section

variable [RealScalar α] [QuietNaN α] {a b c : α}

theorem lt_of_number_le_of_lt (hab : a ≤ b) (hbc : b < c) :
  a < c
  := by
  obtain ⟨ha, hb⟩ := numbers_of_le a b hab
  obtain ⟨-, hc⟩ := numbers_of_lt b c hbc
  rw [OrderedNumbers.lt_iff_not_le a c ha hc]
  intro hca
  rw [OrderedNumbers.lt_iff_not_le b c hb hc] at hbc
  apply hbc (OrderedNumbers.le_trans c a b hc ha hb hca hab)

theorem number_le_trans (hab : a ≤ b) (hbc : b ≤ c) :
  a ≤ c
  := by
  obtain ⟨ha, hb⟩ := numbers_of_le a b hab
  obtain ⟨-, hc⟩ := numbers_of_le b c hbc
  apply OrderedNumbers.le_trans a b c ha hb hc hab hbc

end

/-! ### Folds -/

/-- What a fold ends with vouches for its start and for what each step took in, if every step
vouches for the state before it and for what it took in. -/
theorem foldl_backward {β : Type} {Q : β → Prop} {P : Fin n → Prop} {f : β → Fin n → β} {b : β}
    (hstep : ∀ b i, Q (f b i) → Q b ∧ P i) (h : Q (Fin.foldl n f b)) :
  Q b ∧ ∀ i, P i
  := by
  induction n with
  | zero =>
    rw [Fin.foldl_zero] at h
    exact ⟨h, fun i => i.elim0⟩
  | succ n ih =>
    rw [Fin.foldl_succ_last] at h
    obtain ⟨hbefore, hlast⟩ := hstep _ _ h
    obtain ⟨hstart, hall⟩ := ih (fun b i => hstep b i.castSucc) hbefore
    exact ⟨hstart, Fin.forall_fin_succ'.mpr ⟨hall, hlast⟩⟩

theorem foldBelow_backward {β : Type} {Q : β → Prop} {P : Fin n → Prop} {i : Fin n}
    {f : β → Fin n → β} {b : β} (hstep : ∀ b k, Q (f b k) → Q b ∧ P k) (h : Q (foldBelow i f b)) :
  Q b ∧ ∀ k, k < i → P k
  := by
  obtain ⟨hstart, hall⟩ := foldl_backward (P := fun k => P ⟨k.val, k.isLt.trans i.isLt⟩)
    (fun b k => hstep b _) h
  use hstart
  intro k hk
  exact hall ⟨k.val, hk⟩

section

variable [RealScalar α] [QuietNaN α]

/-- The largest of some scalars, one of which is a number, is not below any number among them. -/
theorem le_foldl_maxNum {f : Fin n → α} {b : α} (hb : IsNumber b) :
  b ≤ Fin.foldl n (fun worst i => maxNum worst (f i)) b
    ∧ ∀ i, IsNumber (f i) → f i ≤ Fin.foldl n (fun worst i => maxNum worst (f i)) b
  := by
  induction n with
  | zero =>
    rw [Fin.foldl_zero]
    exact ⟨hb.le_refl, fun i => i.elim0⟩
  | succ n ih =>
    rw [Fin.foldl_succ_last]
    obtain ⟨hstart, hall⟩ := ih (f := fun i => f i.castSucc)
    have hlast := le_maxNum_left _ (f (Fin.last n)) (numbers_of_le _ _ hstart).2
    refine ⟨number_le_trans hstart hlast, Fin.forall_fin_succ'.mpr ⟨?_, ?_⟩⟩
    · intro i hi
      apply number_le_trans (hall i hi) hlast
    · intro hi
      apply le_maxNum_right _ _ hi

/-- The entries of a vector whose length is a number are numbers. -/
theorem Vec.numbers_of_norm {v : Vec α n} (h : IsNumber v.norm) (i : Fin n) :
  IsNumber (v i)
  := by
  have hsum := number_of_sqrt _ h
  have hstep : ∀ (acc : α) (i : Fin n), IsNumber (acc + v i * v i) →
      IsNumber acc ∧ IsNumber (v i) := by
    intro acc i hi
    obtain ⟨hacc, hsquare⟩ := numbers_of_add _ _ hi
    exact ⟨hacc, (numbers_of_mul _ _ hsquare).1⟩
  exact (foldl_backward hstep hsum).2 i

theorem number_of_natPower_two {a : α} (h : IsNumber (natPower a 2)) :
  IsNumber a
  := by
  rw [natPower, mulPower, if_neg (by decide), if_neg (by decide), mulPower, if_pos (by decide),
    if_pos (by decide)] at h
  exact (numbers_of_mul _ _ (numbers_of_mul _ _ h).2).1

end

end Numerics
