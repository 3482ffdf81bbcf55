import Mathlib.Algebra.Order.Field.Basic
import Mathlib.Algebra.Polynomial.OfFn
import Mathlib.Algebra.Polynomial.Roots
import Numerics.Proofs.Curve.LeastSquares
import Numerics.Proofs.Linear.Squares

/-!
# Samples that separate the powers

The form of the matrix of the equations is the sum over the samples of the squares of a sum of
powers, `Monomials.squares`. So a fit succeeds exactly if the samples separate the powers,
`Monomials.Separates`: the squares of a power less a sum of lower ones never have a sum that is
negligible beside that of the squares of some power.

For the powers of lowest degree this is about monic polynomials. As many abscissae as there are
powers are enough to tell every polynomial from zero, because a polynomial has no more roots than
its degree. They are not enough for a fit: far from zero the powers grow apart, and the sum of the
squares of the constant one becomes negligible.
-/

namespace Numerics

open Polynomial

namespace Monomials

variable {α : Type} [ExactScalar α] {k : Nat}

/-- The sum of the squares of the sum of the powers with the coefficients `v`, over the abscissae
`xs`. -/
def squares (terms : Monomials k) (xs : List α) (v : Vec α k) : α :=
  (xs.map fun x => (terms.eval x).dot v ^ 2).sum

/-- The squares of a power less a sum of lower ones never have a sum that is negligible beside that
of the squares of a power. -/
def Separates (terms : Monomials k) (xs : List α) : Prop :=
  ∀ j (v : Vec α k), v.Monic j →
    ∀ i, epsilon * terms.squares xs (Vec.axis i) * k < terms.squares xs v

theorem squares_nonneg (terms : Monomials k) (xs : List α) (v : Vec α k) :
  0 ≤ terms.squares xs v
  := by
  apply List.sum_nonneg
  rw [List.forall_mem_map]
  intro x _
  apply sq_nonneg

/-- A single power is separated, unless it vanishes at all abscissae. -/
theorem separates_single (hε : (epsilon : α) < 1) {terms : Monomials 1} {xs : List α}
    (h : 0 < terms.squares xs (Vec.axis 0)) :
  terms.Separates xs
  := by
  intro j v hv i
  have haxis : v = Vec.axis 0 := by
    ext l
    rw [Subsingleton.elim l j, hv.eq_one, Subsingleton.elim j 0, Vec.get_axis, if_pos rfl]
  rw [haxis, Subsingleton.elim i 0, Nat.cast_one, mul_one]
  apply mul_lt_of_lt_one_left h hε

/-! ### Powers of lowest degree -/

theorem exponent_dense (h : k ≤ 2 ^ 31) (i : Fin k) :
  (dense k).exponent i = i
  := by
  rw [exponent, dense, Vec.get_ofFn]
  apply Nat.mod_eq_of_lt
  show i.val < 2 ^ 32
  omega

theorem get_eval_dense (h : k ≤ 2 ^ 31) (x : α) (i : Fin k) :
  (dense k).eval x i = x ^ i.val
  := by
  rw [get_eval, exponent_dense h]
  rw [exponent_dense h]
  omega

/-- The sum of the powers of lowest degree with the coefficients `v` is a polynomial. -/
theorem dot_eval_dense (h : k ≤ 2 ^ 31) (v : Vec α k) (x : α) :
  ((dense k).eval x).dot v = (ofFn k v.toFun).eval x
  := by
  rw [Vec.dot_eq, dotProduct, ofFn_eq_sum_monomial, eval_finsetSum]
  apply Finset.sum_congr rfl
  intro i _
  rw [eval_monomial, Vec.toFun_apply, Vec.toFun_apply, get_eval_dense h, mul_comm]

theorem squares_dense (h : k ≤ 2 ^ 31) (xs : List α) (v : Vec α k) :
  (dense k).squares xs v = (xs.map fun x => (ofFn k v.toFun).eval x ^ 2).sum
  := by
  simp only [squares, dot_eval_dense h]

theorem squares_dense_axis (h : k ≤ 2 ^ 31) (xs : List α) (i : Fin k) :
  (dense k).squares xs (Vec.axis i) = (xs.map fun x => (x ^ i.val) ^ 2).sum
  := by
  simp only [squares, Vec.dot_axis, get_eval_dense h]

/-- More abscissae than the degree of a polynomial tell it from zero. -/
theorem sum_sq_eval_pos {xs : List α} {p : α[X]} (hp : p ≠ 0)
    (hdegree : p.natDegree < xs.toFinset.card) :
  0 < (xs.map fun x => p.eval x ^ 2).sum
  := by
  obtain ⟨x, hx, heval⟩ : ∃ x ∈ xs, p.eval x ≠ 0 := by
    by_contra! hroots
    apply hp
    apply eq_zero_of_natDegree_lt_card_of_eval_eq_zero' p xs.toFinset _ hdegree
    intro x hx
    apply hroots x (List.mem_toFinset.mp hx)
  apply (sq_pos_of_ne_zero heval).trans_le
  apply List.single_le_sum
  · rw [List.forall_mem_map]
    intro y _
    apply sq_nonneg
  · apply List.mem_map_of_mem hx

theorem squares_dense_pos (h : k ≤ 2 ^ 31) {xs : List α} (hxs : k ≤ xs.toFinset.card)
    {v : Vec α k} (hv : v ≠ 0) :
  0 < (dense k).squares xs v
  := by
  obtain ⟨i, -⟩ := Vec.exists_ne_zero hv
  rw [squares_dense h]
  apply sum_sq_eval_pos
  · rw [← map_zero (ofFn k), (injective_ofFn k).ne_iff, ← Vec.toFun_zero, Vec.toFun_inj.ne]
    exact hv
  · exact (ofFn_natDegree_lt i.pos _).trans_le hxs

/-! ### Monic polynomials -/

/-- Samples separate the powers of lowest degree exactly if no monic polynomial has negligible
squares. -/
theorem separates_dense_iff (h : k ≤ 2 ^ 31) (xs : List α) :
  (dense k).Separates xs ↔ ∀ p : α[X], p.Monic → p.natDegree < k → ∀ m, m < k →
    epsilon * (xs.map fun x => (x ^ m) ^ 2).sum * k < (xs.map fun x => p.eval x ^ 2).sum
  := by
  constructor
  · intro hseparates p hp hdegree m hm
    have hmonic : (Vec.ofFn (toFn k p)).Monic ⟨p.natDegree, hdegree⟩ := by
      constructor
      · rw [Vec.get_ofFn]
        exact hp.coeff_natDegree
      · intro i hi
        rw [Vec.get_ofFn]
        exact coeff_eq_zero_of_natDegree_lt hi
    have hless := hseparates _ _ hmonic ⟨m, hm⟩
    rw [squares_dense_axis h, squares_dense h, Vec.toFun_ofFn,
      ofFn_comp_toFn_eq_id_of_natDegree_lt hdegree] at hless
    exact hless
  · intro hpoly j v hv i
    have hdegree : (ofFn k v.toFun).natDegree ≤ j := by
      rw [natDegree_le_iff_coeff_eq_zero]
      intro m hm
      rcases lt_or_ge m k with hmk | hmk
      · rw [ofFn_coeff_eq_val_of_lt _ hmk, Vec.toFun_apply]
        exact hv.eq_zero ⟨m, hmk⟩ hm
      · exact ofFn_coeff_eq_zero_of_ge _ hmk
    have hmonic : (ofFn k v.toFun).Monic := by
      apply monic_of_natDegree_le_of_coeff_eq_one j.val hdegree
      rw [ofFn_coeff_eq_val_of_lt _ j.isLt]
      exact hv.eq_one
    rw [squares_dense_axis h, squares_dense h]
    exact hpoly _ hmonic (hdegree.trans_lt j.isLt) i i.isLt

end Monomials

namespace CurveFit

variable {α : Type} [ExactReal α] {k : Nat} {terms : Monomials k} {samples : List (α × α)}
  {xs ys : List α}

/-! ### Solved equations -/

theorem form_gram (terms : Monomials k) (samples : List (α × α)) (v : Vec α k) :
  (gathered terms samples).gram.form v = terms.squares (samples.map Prod.fst) v
  := by
  rw [form_gathered, Monomials.squares, List.map_map]
  rfl

/-- The equations of samples are solved exactly if the samples separate the powers. -/
theorem exists_solve_iff :
  (∃ c, (gathered terms samples).solve = .ok c) ↔ terms.Separates (samples.map Prod.fst)
  := by
  have hfactor : (∃ c, (gathered terms samples).solve = .ok c)
      ↔ ∃ l, Linear.Cholesky.factor (gathered terms samples).gram = .ok l := by
    constructor
    · rintro ⟨c, hc⟩
      obtain ⟨l, hl, -⟩ := solve_eq_ok hc
      use l
    · rintro ⟨l, hl⟩
      rw [solve, hl]
      exact ⟨_, rfl⟩
  rw [hfactor, Linear.Cholesky.exists_factor_iff (transpose_gram terms samples)]
  apply forall_congr'
  intro j
  have hdiagonal : ∀ i, |(gathered terms samples).gram i i|
      = terms.squares (samples.map Prod.fst) (Vec.axis i) := by
    intro i
    rw [← Mat.form_axis, form_gram, abs_of_nonneg (terms.squares_nonneg _ _)]
  simp only [Linear.Cholesky.floor_lt_iff j, form_gram, hdiagonal]

/-- Enough samples are fitted exactly if they separate the powers. -/
theorem exists_ofSamples_iff (hlength : xs.length = ys.length) (hxs : xs ≠ [])
    (hk : k ≤ xs.length) :
  (∃ c, ofSamples terms xs ys = .ok c) ↔ terms.Separates xs
  := by
  rw [ofSamples_eq hlength hxs hk, exists_solve_iff, List.map_fst_zip hlength.le]

/-- Enough samples that do not separate the powers are reported. -/
theorem ofSamples_eq_singular_iff (hlength : xs.length = ys.length) (hxs : xs ≠ [])
    (hk : k ≤ xs.length) :
  ofSamples terms xs ys = .error .singular ↔ ¬ terms.Separates xs
  := by
  rw [← exists_ofSamples_iff hlength hxs hk, ofSamples_eq hlength hxs hk]
  apply eq_error_iff
  intro e he
  apply solve_eq_error he

/-! ### Fits by powers of lowest degree -/

theorem posDef_gram_dense (h : k ≤ 2 ^ 31) (hk : k ≤ (samples.map Prod.fst).toFinset.card) :
  (gathered (.dense k) samples).gram.PosDef
  := by
  constructor
  · apply transpose_gram
  · intro v hv
    rw [form_gram]
    apply Monomials.squares_dense_pos h hk hv

/-- With exact scalars and roots, samples with an abscissa for each power are fitted by the powers
of lowest degree exactly if they separate these, as a single power always is, and are reported as
singular otherwise. Exponents that are read as they are make the matrix of the equations positive
definite, and separation is then about monic polynomials. -/
theorem ofSamples_dense_ok_iff (hk : 0 < k) (xs ys : List α) (hlength : xs.length = ys.length)
    (hxs : k ≤ xs.toFinset.card) :
  ((∃ c, ofSamples (.dense k) xs ys = .ok c) ↔ (Monomials.dense k).Separates xs)
    ∧ (ofSamples (.dense k) xs ys = .error .singular ↔ ¬ (Monomials.dense k).Separates xs)
    ∧ ((epsilon : α) < 1 → k = 1 → (Monomials.dense k).Separates xs)
    ∧ (k ≤ 2 ^ 31 →
        (gathered (.dense k) (xs.zip ys)).gram.PosDef
          ∧ ((Monomials.dense k).Separates xs ↔ ∀ p : α[X], p.Monic → p.natDegree < k →
              ∀ m, m < k → epsilon * (xs.map fun x => (x ^ m) ^ 2).sum * k
                < (xs.map fun x => p.eval x ^ 2).sum))
  := by
  have hle : k ≤ xs.length := hxs.trans xs.toFinset_card_le
  have hne : xs ≠ [] := List.ne_nil_of_length_pos (hk.trans_le hle)
  use exists_ofSamples_iff hlength hne hle, ofSamples_eq_singular_iff hlength hne hle
  constructor
  · rintro hε rfl
    apply Monomials.separates_single hε
    apply Monomials.squares_dense_pos (by norm_num) hxs
    intro hzero
    have hentry := congrArg (fun v : Vec α 1 => v 0) hzero
    simp at hentry
  · intro hbound
    constructor
    · apply posDef_gram_dense hbound
      rw [List.map_fst_zip hlength.le]
      exact hxs
    · apply Monomials.separates_dense_iff hbound

/-- Two samples at one distance from zero, where the form is that of twice the identity. -/
theorem ofSamples_dense_ok_iff_near :
  0 < 2
    ∧ ([-1, 1] : List ℝ).length = ([0, 2] : List ℝ).length
    ∧ 2 ≤ ([-1, 1] : List ℝ).toFinset.card
    ∧ ∃ c : CurveFit ℝ 2, ofSamples (.dense 2) [-1, 1] [0, 2] = .ok c
  := by
  have hcard : 2 ≤ ([-1, 1] : List ℝ).toFinset.card := by
    rw [List.toFinset_card_of_nodup (by norm_num)]
    rfl
  have hsquares : ∀ v : Vec ℝ 2,
      (Monomials.dense 2).squares [-1, 1] v = 2 * (v 0 ^ 2 + v 1 ^ 2) := by
    intro v
    rw [Monomials.squares_dense (by norm_num)]
    simp [ofFn_eq_sum_monomial, Fin.sum_univ_two]
    ring
  use two_pos, rfl, hcard
  apply (ofSamples_dense_ok_iff two_pos [-1, 1] [(0 : ℝ), 2] rfl hcard).1.mpr
  intro j v hv i
  have hε : (epsilon : ℝ) = 1 / 2 ^ 52 := rfl
  have haxis : (Vec.axis i : Vec ℝ 2) 0 ^ 2 + (Vec.axis i : Vec ℝ 2) 1 ^ 2 = 1 := by
    fin_cases i <;> simp
  have hentry : v j ^ 2 ≤ v 0 ^ 2 + v 1 ^ 2 := by
    fin_cases j
    · exact le_add_of_nonneg_right (sq_nonneg _)
    · exact le_add_of_nonneg_left (sq_nonneg _)
  rw [hv.eq_one] at hentry
  rw [hsquares, hsquares, haxis, hε]
  norm_num
  linarith

/-- Far from zero two abscissae are not enough for a line, though there is one through the samples:
the constant one is too small against the squares of the abscissae. -/
theorem ofSamples_distant :
  (epsilon : ℝ) = 1 / 2 ^ 52
    ∧ 2 ≤ ([2 ^ 30, -2 ^ 30] : List ℝ).toFinset.card
    ∧ ofSamples (.dense 2) [2 ^ 30, -2 ^ 30] ([2 ^ 30, -2 ^ 30] : List ℝ) = .error .singular
  := by
  have hε : (epsilon : ℝ) = 1 / 2 ^ 52 := rfl
  have hseparates : ¬ (Monomials.dense 2).Separates ([2 ^ 30, -2 ^ 30] : List ℝ) := by
    intro hseparates
    have hmonic : (Vec.axis 0 : Vec ℝ 2).Monic 0 := by
      constructor
      · simp
      · intro i hi
        simp [hi.ne']
    have hless := hseparates 0 _ hmonic 1
    rw [Monomials.squares_dense_axis (by norm_num), Monomials.squares_dense_axis (by norm_num),
      hε] at hless
    norm_num at hless
  use hε
  constructor
  · rw [List.toFinset_card_of_nodup (by norm_num)]
    rfl
  · apply (ofSamples_eq_singular_iff rfl (List.cons_ne_nil _ _) le_rfl).mpr hseparates

end CurveFit

end Numerics
