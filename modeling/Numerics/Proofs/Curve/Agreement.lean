import Mathlib.Algebra.Order.Field.Basic
import Numerics.Proofs.Curve.Interpolation
import Numerics.Proofs.Curve.Separation

/-!
# Fits that interpolate

A fit makes the squared error least, and an interpolation makes it zero. So if the samples lie on a
polynomial with no more coefficients than a fit by the powers of lowest degree has, then the fit is
this polynomial: its coefficients have no squared error, and no others have as little.

With one sample for each power, a fit that succeeds has told the abscissae apart, because fewer
abscissae than powers are reported. Then there is an interpolation of the samples as well, and its
polynomial has one coefficient for each power. So the normal equations and the divided differences
lead to the same polynomial.
-/

namespace Numerics

open Polynomial

/-! ### Polynomials as sums of powers -/

namespace Monomials

variable {α : Type} [ExactScalar α] {k : Nat}

theorem exponent_dense_lt (hk : k ≤ 2 ^ 31) (i : Fin k) :
  (dense k).exponent i < 2 ^ 31
  := by
  rw [exponent_dense hk]
  exact i.isLt.trans_le hk

/-- A polynomial of low degree is the sum of the powers with its coefficients. -/
theorem combine_toFn (hk : k ≤ 2 ^ 31) {q : α[X]} (hq : q.natDegree < k) (x : α) :
  (dense k).combine (Vec.ofFn (toFn k q)) x = q.eval x
  := by
  rw [← dot_eval (exponent_dense_lt hk), dot_eval_dense hk, Vec.toFun_ofFn,
    ofFn_comp_toFn_eq_id_of_natDegree_lt hq]

end Monomials

/-! ### Samples that are interpolated -/

namespace Newton

variable {α : Type} [ExactScalar α] {samples : List (α × α)} {q : α[X]}

theorem Through.natDegree_lt (h : Through samples q) (hsamples : samples ≠ []) :
  q.natDegree < samples.length
  := by
  obtain rfl | hq := eq_or_ne q 0
  · rw [natDegree_zero]
    exact List.length_pos_of_ne_nil hsamples
  · exact (natDegree_lt_iff_degree_lt hq).mpr h.degree_lt

/-- The interpolation of samples with different abscissae is the polynomial through them. -/
theorem ofSamples_through {xs ys : List α} (hlength : xs.length = ys.length) (hxs : xs ≠ [])
    (hdistinct : ((xs.zip ys).map Prod.fst).Nodup) :
  ∃ p q, ofSamples xs ys = .ok p ∧ Through (xs.zip ys) q ∧ ∀ x, p.eval x = q.eval x
  := by
  obtain ⟨y, hy⟩ := exists_values hdistinct
  obtain ⟨p, hp, hinterpolates⟩ := (interpolates_empty y).addAll hy hdistinct
  refine ⟨p, _, ?_, (through_iff hy hdistinct).mpr rfl, hinterpolates.eval_eq⟩
  rw [ofSamples, Curve.samples_eq hlength hxs]
  exact hp

end Newton

namespace CurveFit

variable {α : Type} [ExactReal α] {k : Nat} {terms : Monomials k} {samples : List (α × α)}
  {c : CurveFit α k}

/-! ### Samples that are fitted -/

theorem terms_of_solve (h : (gathered terms samples).solve = .ok c) :
  c.terms = terms
  := by
  obtain ⟨l, -, rfl⟩ := solve_eq_ok h
  apply gathered_terms

/-- Samples that are fitted have at least one abscissa for each power. -/
theorem le_card_of_solve (h : (gathered terms samples).solve = .ok c) :
  k ≤ (samples.map Prod.fst).toFinset.card
  := by
  by_contra! hless
  rw [solve_gathered_of_card_lt hless] at h
  cases h

/-- If there is one sample for each power, then no abscissa comes twice. -/
theorem nodup_of_solve (h : (gathered terms samples).solve = .ok c)
    (hlength : samples.length = k) :
  (samples.map Prod.fst).Nodup
  := by
  have hcard := le_card_of_solve h
  rw [List.card_toFinset] at hcard
  apply List.dedup_eq_self.mp
  apply (List.dedup_sublist _).eq_of_length_le
  rw [List.length_map, hlength]
  exact hcard

/-- The fit to samples on a polynomial of low degree is this polynomial. -/
theorem eval_eq_of_exact (hk : k ≤ 2 ^ 31) (h : (gathered (.dense k) samples).solve = .ok c)
    {q : α[X]} (hq : q.natDegree < k) (hexact : ∀ s ∈ samples, q.eval s.1 = s.2) (x : α) :
  c.eval x = q.eval x
  := by
  have hcoeffs : Vec.ofFn (toFn k q) = c.coeffs := by
    apply (leastSquares_of_solve (Monomials.exponent_dense_lt hk) h).eq_of_exact
    intro s hs
    rw [Monomials.combine_toFn hk hq, hexact s hs]
  have hterms := terms_of_solve h
  rw [eval_eq, hterms, ← hcoeffs, Monomials.combine_toFn hk hq]
  rw [hterms]
  exact Monomials.exponent_dense_lt hk

/-! ### One sample for each power -/

/-- With exact scalars and roots, and as long as the exponents are read as they are: if a fit by the
powers of lowest degree to as many samples succeeds, then so does the interpolation of the samples.
The two have the same value everywhere, so the fit goes through all samples. -/
theorem ofSamples_dense_interpolates (hk : k ≤ 2 ^ 31) (xs ys : List α) (hlength : xs.length = k)
    (c : CurveFit α k) (hc : ofSamples (.dense k) xs ys = .ok c) :
  ∃ p, Newton.ofSamples xs ys = .ok p
    ∧ (∀ x, c.eval x = p.eval x)
    ∧ ∀ s ∈ xs.zip ys, c.eval s.1 = s.2
  := by
  obtain ⟨pairs, hpairs, -⟩ := bind_eq_ok.mp hc
  have hxs := Curve.ne_nil_of_samples hpairs
  obtain ⟨hsame, -, hsolve⟩ := ofSamples_eq_ok hc
  have hcount : (xs.zip ys).length = k := by
    rw [List.length_zip, ← hsame, min_self, hlength]
  obtain ⟨p, q, hp, hq, heval⟩ :=
    Newton.ofSamples_through hsame hxs (nodup_of_solve hsolve hcount)
  have hfit : ∀ x, c.eval x = q.eval x := by
    apply eval_eq_of_exact hk hsolve _ hq.eval_eq
    rw [← hcount]
    apply hq.natDegree_lt
    rw [← List.length_pos_iff, hcount, ← hlength]
    exact List.length_pos_of_ne_nil hxs
  use p, hp
  constructor
  · intro x
    rw [hfit, heval]
  · intro s hs
    rw [hfit, hq.eval_eq s hs]

/-- Three samples of a parabola. -/
theorem ofSamples_dense_interpolates_parabola :
  3 ≤ 2 ^ 31
    ∧ ([-1, 0, 1] : List ℝ).length = 3
    ∧ ∃ (c : CurveFit ℝ 3) (p : Newton ℝ),
      ofSamples (.dense 3) [-1, 0, 1] [3, 1, 1] = .ok c
        ∧ Newton.ofSamples [-1, 0, 1] [3, 1, 1] = .ok p
        ∧ (∀ x, c.eval x = p.eval x)
        ∧ c.eval (-1) = 3
  := by
  have hsquares : ∀ v : Vec ℝ 3, (Monomials.dense 3).squares [-1, 0, 1] v
      = 2 * (v 0 + v 2) ^ 2 + 2 * v 1 ^ 2 + v 0 ^ 2 := by
    intro v
    rw [Monomials.squares_dense (by norm_num)]
    simp [ofFn_eq_sum_monomial, Fin.sum_univ_three]
    ring
  obtain ⟨c, hc⟩ : ∃ c : CurveFit ℝ 3, ofSamples (.dense 3) [-1, 0, 1] [3, 1, 1] = .ok c := by
    apply (exists_ofSamples_iff (by rfl) (List.cons_ne_nil _ _) (by decide)).mpr
    intro j v hv i
    have hε : (epsilon : ℝ) = 1 / 2 ^ 52 := rfl
    have haxis : (Monomials.dense 3).squares [-1, 0, 1] (Vec.axis i) ≤ (3 : ℝ) := by
      rw [hsquares]
      fin_cases i <;> norm_num [Fin.ext_iff]
    have hentry : ∀ l : Fin 3, 2 / 3 * v l ^ 2 ≤ 2 * (v 0 + v 2) ^ 2 + 2 * v 1 ^ 2 + v 0 ^ 2
      | 0 => by nlinarith [sq_nonneg (v 0 + v 2), sq_nonneg (v 1), sq_nonneg (v 0)]
      | 1 => by nlinarith [sq_nonneg (v 0 + v 2), sq_nonneg (v 1), sq_nonneg (v 0)]
      | 2 => by nlinarith [sq_nonneg (3 * v 0 + 2 * v 2), sq_nonneg (v 1)]
    have hmonic := hentry j
    rw [hv.eq_one, ← hsquares] at hmonic
    rw [hε]
    norm_num
    linarith
  have hlength : ([-1, 0, 1] : List ℝ).length = 3 := rfl
  obtain ⟨p, hp, hsame, hthrough⟩ :=
    ofSamples_dense_interpolates (by norm_num) [-1, 0, 1] [(3 : ℝ), 1, 1] hlength c hc
  exact ⟨by norm_num, hlength, c, p, hc, hp, hsame, hthrough (-1, 3) List.mem_cons_self⟩

end CurveFit

end Numerics
