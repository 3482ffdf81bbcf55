import Mathlib.Algebra.Order.Field.Power
import Mathlib.Data.List.ChainOfFn
import Numerics.Proofs.Curve.LeastSquares
import Numerics.Proofs.Sorting.Insertion
import Numerics.Proofs.Steps

/-!
# Powers and the exponents that name them

The exponents of a fit are accepted if there is one and they increase, whatever their size. Each of
them is a word of 32 bits, and its power is the one with the `signedExponent`, which is the number
that the word stands for by its sign.

So a word below `2 ^ 31` names its power. A word from there on names a power with a positive
exponent, and what is computed is one with a negative exponent: the two have the exponents `2 ^ 32`
apart, and they agree at the points `1` and `-1` only.
-/

namespace Numerics

theorem intPower_eq {α : Type} [ExactScalar α] (x : α) (e : Int) :
  intPower x e = x ^ e
  := by
  cases e with
  | ofNat e => rw [intPower, natPower_eq, Int.ofNat_eq_natCast, zpow_natCast]
  | negSucc e => rw [intPower, natPower_eq, zpow_negSucc, one_div]

namespace Monomials

variable {k : Nat}

/-! ### Accepted exponents -/

theorem increasing_iff {words : List UInt32} :
  increasing words = true ↔ words.IsChain (· < ·)
  := by
  fun_induction increasing words with
  | case1 a b rest ih => rw [Bool.and_eq_true, decide_eq_true_eq, ih, List.isChain_cons_cons]
  | case2 words h =>
    match words with
    | [] => simp
    | [a] => simp
    | a :: b :: rest => exact absurd rfl (h a b rest)

/-- Exponents are accepted if there is one and they increase. -/
theorem ofExponents_eq_ok_iff {exponents : Vec UInt32 k} {terms : Monomials k} :
  ofExponents exponents = .ok terms
    ↔ 0 < k ∧ StrictMono (fun i => (exponents i).toNat) ∧ terms = ⟨exponents⟩
  := by
  have hincreasing :
      increasing exponents.toList = true ↔ StrictMono fun i => (exponents i).toNat := by
    rw [increasing_iff, Vec.toList_eq_ofFn, List.isChain_iff_pairwise, List.pairwise_ofFn]
    rfl
  have hrefused : (k = 0 || !increasing exponents.toList) = true
      ↔ ¬ (0 < k ∧ StrictMono fun i => (exponents i).toNat) := by
    rw [Bool.or_eq_true, decide_eq_true_eq, Bool.not_eq_true', ← Bool.not_eq_true, hincreasing,
      not_and_or, Nat.pos_iff_ne_zero, not_not]
  rw [ofExponents, ← and_assoc]
  split
  case isTrue h =>
    constructor
    · rintro ⟨⟩
    · rintro ⟨haccepted, -⟩
      exact absurd haccepted (hrefused.mp h)
  case isFalse h =>
    rw [hrefused, not_not] at h
    rw [and_iff_right h, Except.ok.injEq, eq_comm]

/-! ### Signed exponents -/

/-- The exponent of the power `i` as it is read: words from `2 ^ 31` on are negative. -/
def signedExponent (terms : Monomials k) (i : Fin k) : Int :=
  if terms.exponent i < 2 ^ 31 then terms.exponent i else terms.exponent i - 2 ^ 32

theorem toInt_exponents (terms : Monomials k) (i : Fin k) :
  (terms.exponents i).toInt32.toInt = terms.signedExponent i
  := by
  have hword : (terms.exponents i).toInt32.toInt
      = if 2 * terms.exponent i < 2 ^ 32 then (terms.exponent i : Int)
        else terms.exponent i - (2 ^ 32 : Nat) := BitVec.toInt_eq_toNat_cond _
  rw [hword, signedExponent]
  split <;> split <;> omega

variable {α : Type} [ExactScalar α] {terms : Monomials k} {i : Fin k}

theorem get_eval_signed (terms : Monomials k) (x : α) (i : Fin k) :
  terms.eval x i = x ^ terms.signedExponent i
  := by
  rw [eval, Vec.get_ofFn, toInt_exponents, intPower_eq]

theorem signedExponent_of_lt (h : terms.exponent i < 2 ^ 31) :
  terms.signedExponent i = terms.exponent i
  := if_pos h

theorem signedExponent_of_not_lt (h : ¬ terms.exponent i < 2 ^ 31) :
  terms.signedExponent i = -((2 ^ 32 - terms.exponent i : Nat) : Int)
  := by
  have hword : terms.exponent i < 2 ^ 32 := (terms.exponents i).toNat_lt
  rw [signedExponent, if_neg h]
  omega

/-- The power of a word below `2 ^ 31` is the monomial that it names, and that of another word is so
at `1` and `-1` only. -/
theorem get_eval_eq_pow_iff {x : α} (hx : x ≠ 0) :
  terms.eval x i = x ^ terms.exponent i ↔ terms.exponent i < 2 ^ 31 ∨ |x| = 1
  := by
  rw [get_eval_signed]
  by_cases h : terms.exponent i < 2 ^ 31
  · rw [signedExponent_of_lt h, zpow_natCast]
    exact iff_of_true rfl (.inl h)
  · have hword : terms.exponent i + (2 ^ 32 - terms.exponent i) = 2 ^ 32 :=
      Nat.add_sub_cancel' (terms.exponents i).toNat_lt.le
    rw [signedExponent_of_not_lt h, zpow_neg, zpow_natCast, eq_comm, or_iff_right h,
      ← mul_eq_one_iff_eq_inv₀ (pow_ne_zero _ hx), ← pow_add, hword]
    have heven : Even (2 ^ 32) := ⟨2 ^ 31, by norm_num⟩
    rw [← heven.pow_abs]
    apply pow_eq_one_iff_of_nonneg (abs_nonneg x)
    norm_num

/-! ### Values of a fit -/

theorem eval_eq_sum_signed (c : CurveFit α k) (x : α) :
  c.eval x = ∑ i, c.coeffs i * x ^ c.terms.signedExponent i
  := by
  rw [CurveFit.eval, Vec.dot_eq, dotProduct]
  apply Finset.sum_congr rfl
  intro i _
  rw [Vec.toFun_apply, Vec.toFun_apply, get_eval_signed, mul_comm]

/-- In exact arithmetic, let exponents be accepted, and `x` not be zero. The exponents increase, and
each power at `x` is the one with the signed exponent. It is the monomial with the exponent itself
if and only if that is below `2 ^ 31`, or `x` is `1` or `-1`. The values of a fit are sums of these
powers with its coefficients, and thus of the monomials where all exponents are below `2 ^ 31`. -/
theorem powers_signed {exponents : Vec UInt32 k} (h : ofExponents exponents = .ok terms) {x : α}
    (hx : x ≠ 0) :
  StrictMono terms.exponent
    ∧ (∀ i, terms.exponent i = (exponents i).toNat)
    ∧ (∀ i, terms.eval x i = x ^ terms.signedExponent i)
    ∧ (∀ i, terms.eval x i = x ^ terms.exponent i ↔ terms.exponent i < 2 ^ 31 ∨ |x| = 1)
    ∧ ∀ c : CurveFit α k, c.terms = terms →
        c.eval x = ∑ i, c.coeffs i * x ^ terms.signedExponent i
        ∧ ((∀ i, terms.exponent i < 2 ^ 31) → c.eval x = ∑ i, c.coeffs i * x ^ terms.exponent i)
  := by
  obtain ⟨-, hmono, rfl⟩ := ofExponents_eq_ok_iff.mp h
  refine ⟨hmono, fun i => rfl, get_eval_signed _ x, fun i => get_eval_eq_pow_iff hx, ?_⟩
  intro c hc
  rw [← hc]
  use eval_eq_sum_signed c x
  intro hexponents
  apply CurveFit.eval_eq hexponents

/-- Two monomials and a reciprocal. -/
theorem powers_signed_mixed :
  ∃ terms : Monomials 3, ofExponents (Vec.ofFn ![0, 5, 4294967295]) = .ok terms
    ∧ terms.eval (2 : ℚ) 0 = 1
    ∧ terms.eval (2 : ℚ) 1 = 32
    ∧ terms.eval (2 : ℚ) 2 = 1 / 2
  := by
  have h : ofExponents (Vec.ofFn ![0, 5, 4294967295]) = .ok ⟨Vec.ofFn ![0, 5, 4294967295]⟩ := rfl
  obtain ⟨-, -, hsigned, hnamed, -⟩ := powers_signed h (two_ne_zero : (2 : ℚ) ≠ 0)
  refine ⟨_, h, ?_, ?_, ?_⟩
  · rw [(hnamed 0).mpr (.inl (by decide))]
    rfl
  · have hexponent : (⟨Vec.ofFn ![0, 5, 4294967295]⟩ : Monomials 3).exponent 1 = 5 := by decide
    rw [(hnamed 1).mpr (.inl (by decide)), hexponent]
    norm_num
  · have hexponent : (⟨Vec.ofFn ![0, 5, 4294967295]⟩ : Monomials 3).signedExponent 2 = -1 := by
      decide
    rw [hsigned 2, hexponent]
    norm_num

/-- A fit with one power, whose exponent is the largest word, goes through its sample. At one half
its value is `2`, and that of the monomial that the word names is less. -/
theorem powers_wrap :
  ∃ (terms : Monomials 1) (c : CurveFit ℚ 1),
    ofExponents (Vec.ofFn ![4294967295]) = .ok terms
    ∧ CurveFit.ofSamples terms [1] [1] = .ok c
    ∧ c.coeffs 0 = 1
    ∧ terms.exponent 0 = 4294967295
    ∧ terms.eval (1 / 2 : ℚ) 0 = 2
    ∧ c.eval (1 / 2) = 2
    ∧ terms.eval (1 / 2 : ℚ) 0 ≠ (1 / 2) ^ terms.exponent 0
    ∧ c.eval (1 / 2) ≠ ∑ i, c.coeffs i * (1 / 2) ^ terms.exponent i
  := by
  have hterms : ofExponents (Vec.ofFn ![4294967295]) = .ok ⟨Vec.ofFn ![4294967295]⟩ := rfl
  obtain ⟨c, hc, hcoeffs, heval⟩ : ∃ c : CurveFit ℚ 1,
      CurveFit.ofSamples ⟨Vec.ofFn ![4294967295]⟩ [1] [1] = .ok c
        ∧ c.coeffs 0 = 1 ∧ c.eval (1 / 2) = 2 := by
    apply exists_of_any
    decide +kernel
  have hpower (e : Nat) : (1 / 2 : ℚ) ^ e < 2 :=
    (pow_le_one₀ (by norm_num) (by norm_num)).trans_lt one_lt_two
  have hvalue : (⟨Vec.ofFn ![4294967295]⟩ : Monomials 1).eval (1 / 2 : ℚ) 0 = 2 := by
    have hexponent : (⟨Vec.ofFn ![4294967295]⟩ : Monomials 1).signedExponent 0 = -1 := by decide
    rw [get_eval_signed, hexponent]
    norm_num
  refine ⟨_, c, hterms, hc, hcoeffs, rfl, hvalue, heval, ?_, ?_⟩
  · rw [hvalue]
    apply (hpower _).ne'
  · rw [heval, Fin.sum_univ_one, hcoeffs, one_mul]
    apply (hpower _).ne'

end Monomials

end Numerics
