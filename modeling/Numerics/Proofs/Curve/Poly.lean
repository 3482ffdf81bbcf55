import Mathlib.Algebra.Polynomial.Taylor
import Numerics.Curve.Poly
import Numerics.Proofs.Scalar.Exact

/-!
# Lists of coefficients as polynomials

`p.toPolynomial` is the polynomial with the coefficients of `p`. In exact arithmetic its values and
its derivative are those of `p`, and its degree is that of `p`, or less where the last coefficients
are zero. So Taylor's formula holds of the values of `p` and its iterated derivatives, and the
derivative after the degree has no coefficients.
-/

namespace Numerics

open Polynomial

/-- Taylor's formula, with any number of terms that is large enough. -/
theorem eval_add_eq_sum {α : Type} [ExactScalar α] (p : α[X]) (x h : α) {m : Nat}
    (hm : p.natDegree < m) :
  p.eval (x + h) = ∑ k ∈ Finset.range m, (hasseDeriv k p).eval x * h ^ k
  := by
  rw [add_comm, ← taylor_eval, eval_eq_sum_range' (by rwa [natDegree_taylor])]
  simp only [taylor_coeff]

namespace Poly

variable {α : Type} [ExactScalar α] (p : Poly α)

/-- The polynomial with the coefficients of `p`. -/
noncomputable def toPolynomial : α[X] :=
  p.coeffs.foldr (fun a acc => acc * X + C a) 0

theorem eval_toPolynomial (x : α) :
  p.toPolynomial.eval x = p.eval x
  := by
  obtain ⟨coeffs⟩ := p
  induction coeffs with
  | nil => apply Polynomial.eval_zero
  | cons a coeffs ih =>
    rw [toPolynomial, eval, List.foldr_cons, List.foldr_cons, Polynomial.eval_add,
      Polynomial.eval_mul, eval_X, eval_C]
    rw [toPolynomial, eval] at ih
    rw [ih]

theorem coeff_toPolynomial (k : Nat) :
  p.toPolynomial.coeff k = p.coeffs[k]?.getD 0
  := by
  obtain ⟨coeffs⟩ := p
  induction coeffs generalizing k with
  | nil => apply Polynomial.coeff_zero
  | cons a coeffs ih =>
    rw [toPolynomial, List.foldr_cons]
    cases k with
    | zero => simp
    | succ k =>
      rw [coeff_add, coeff_mul_X, coeff_C_succ, add_zero, List.getElem?_cons_succ]
      apply ih k

theorem natDegree_toPolynomial_le :
  p.toPolynomial.natDegree ≤ p.degree
  := by
  rw [natDegree_le_iff_coeff_eq_zero]
  intro k hk
  rw [degree] at hk
  rw [coeff_toPolynomial, List.getElem?_eq_none (by omega), Option.getD_none]

theorem toPolynomial_derivative :
  p.derivative.toPolynomial = Polynomial.derivative p.toPolynomial
  := by
  ext k
  rw [coeff_derivative, coeff_toPolynomial, coeff_toPolynomial, derivative, List.getElem?_map,
    List.getElem?_drop, List.getElem?_zipIdx, Nat.add_comm 1 k]
  cases p.coeffs[k + 1]? <;> simp

/-- The values of the derivative. -/
theorem eval_derivative (x : α) :
  p.derivative.eval x = (Polynomial.derivative p.toPolynomial).eval x
  := by
  rw [← toPolynomial_derivative, eval_toPolynomial]

/-! ### Iterated derivatives -/

theorem toPolynomial_iterate_derivative (k : Nat) :
  (Poly.derivative^[k] p).toPolynomial = Polynomial.derivative^[k] p.toPolynomial
  := by
  induction k with
  | zero => rfl
  | succ k ih =>
    rw [Function.iterate_succ_apply', Function.iterate_succ_apply', toPolynomial_derivative, ih]

/-- Every derivative takes the place of one coefficient. -/
theorem length_iterate_derivative (k : Nat) :
  (Poly.derivative^[k] p).coeffs.length = p.coeffs.length - k
  := by
  induction k with
  | zero => rfl
  | succ k ih =>
    rw [Function.iterate_succ_apply', length_derivative, ih]
    apply Nat.sub_sub

theorem eval_iterate_derivative (k : Nat) (x : α) :
  (Poly.derivative^[k] p).eval x = k.factorial * (hasseDeriv k p.toPolynomial).eval x
  := by
  rw [← eval_toPolynomial, toPolynomial_iterate_derivative, ← factorial_smul_hasseDeriv,
    LinearMap.smul_apply, eval_smul, nsmul_eq_mul]

/-- The derivative after the degree has no coefficients left. -/
theorem coeffs_iterate_derivative_degree :
  (Poly.derivative^[p.degree + 1] p).coeffs = []
  := by
  rw [← List.length_eq_zero_iff, length_iterate_derivative, degree]
  omega

/-- Taylor's formula for a list of coefficients: the value at `x + h` is the sum of the values of
the iterated derivatives at `x`, up to the degree, times powers of `h` over factorials, and the next
derivative vanishes everywhere. -/
theorem eval_add_eq_taylor (p : Poly α) (x h : α) :
  p.eval (x + h)
      = ∑ k ∈ Finset.range (p.degree + 1), (Poly.derivative^[k] p).eval x * h ^ k / k.factorial
    ∧ ∀ y, (Poly.derivative^[p.degree + 1] p).eval y = 0
  := by
  constructor
  · have hdegree := Nat.lt_succ_of_le p.natDegree_toPolynomial_le
    rw [← eval_toPolynomial, eval_add_eq_sum p.toPolynomial x h hdegree]
    apply Finset.sum_congr rfl
    intro k _
    have hfactorial : (k.factorial : α) ≠ 0 := Nat.cast_ne_zero.mpr k.factorial_ne_zero
    rw [eval_iterate_derivative, mul_assoc, mul_div_cancel_left₀ _ hfactorial]
  · intro y
    rw [eval, coeffs_iterate_derivative_degree, List.foldr_nil]

end Poly

end Numerics
