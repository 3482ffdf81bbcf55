import Mathlib.Algebra.Polynomial.Bivariate
import Mathlib.Tactic.NormNum
import Mathlib.Tactic.Ring
import Numerics.Proofs.Curve.Poly
import Numerics.Proofs.Difference.Affine
import Numerics.Proofs.Difference.Rows
import Numerics.Proofs.Scalar.Exact

/-!
# Differences of polynomials

By Taylor's formula the central difference quotient of a polynomial is a sum of even powers of the
step, whose first term is the derivative. An extrapolation multiplies each term by a `weight`, which
is one for the derivative and zero for the terms that cancel. So the error is a polynomial in the
point and the step, the `remainder`, times the power of the step that is the `order` of the
extrapolation. A polynomial of a degree up to the order has no remainder.
-/

namespace Numerics

open Polynomial
open scoped Polynomial.Bivariate

variable {α : Type} [ExactScalar α]

/-! ### The terms of a quotient -/

/-- A sum over pairs of a term with an even index and one with an odd index. -/
theorem sum_range_two_mul (f : Nat → α) (m : Nat) :
  ∑ k ∈ Finset.range (2 * m), f k = ∑ j ∈ Finset.range m, (f (2 * j) + f (2 * j + 1))
  := by
  induction m with
  | zero => rfl
  | succ m ih =>
    rw [Nat.mul_succ, Finset.sum_range_succ, Finset.sum_range_succ, Finset.sum_range_succ, ih,
      add_assoc]

/-- The central quotient of a polynomial is a sum of even powers of the step. -/
theorem centralQuotient_eval (p : α[X]) (x : α) {h : α} (hne : h ≠ 0) {m : Nat}
    (hm : p.natDegree < 2 * m) :
  centralQuotient (fun t => p.eval t) x h
    = ∑ j ∈ Finset.range m, (hasseDeriv (2 * j + 1) p).eval x * (h ^ 2) ^ j
  := by
  have hadd : h + h ≠ 0 := add_self_eq_zero.not.mpr hne
  rw [centralQuotient, div_eq_iff hadd, sub_eq_add_neg x h, eval_add_eq_sum p x h hm,
    eval_add_eq_sum p x (-h) hm, sum_range_two_mul, sum_range_two_mul, ← Finset.sum_sub_distrib,
    Finset.sum_mul]
  apply Finset.sum_congr rfl
  intro j _
  rw [(even_two_mul j).neg_pow, (odd_two_mul_add_one j).neg_pow, ← pow_mul]
  ring

/-! ### Extrapolation -/

/-- The power of the step that the error of a derivative by differences is a multiple of. -/
def Differencing.order : Differencing → Nat
  | .central => 2
  | .ridders => 6

/-- The factor that an extrapolation applies to the term of a quotient with the power `2 * j` of the
step. -/
def Differencing.weight (j : Nat) : Differencing → α
  | .central => 1
  | .ridders => (64 * (1 / 4) ^ j - 20 + 4 ^ j) / 45

theorem extrapolate_sum {quotient : α → α} {a : Nat → α} {m : Nat}
    (hquotient : ∀ k, k ≠ 0 → quotient k = ∑ j ∈ Finset.range m, a j * (k ^ 2) ^ j) {h : α}
    (hne : h ≠ 0) (differencing : Differencing) :
  extrapolate quotient h differencing
    = ∑ j ∈ Finset.range m, a j * (h ^ 2) ^ j * differencing.weight j
  := by
  cases differencing with
  | central => simp only [extrapolate, hquotient h hne, Differencing.weight, mul_one]
  | ridders =>
    have hcoarse : quotient (h * nat 2)
        = ∑ j ∈ Finset.range m, a j * (h ^ 2) ^ j * 4 ^ j := by
      rw [hquotient _ (by simp [hne])]
      simp only [nat_eq, mul_pow, mul_assoc]
      norm_num
    have hfine : quotient (h / nat 2)
        = ∑ j ∈ Finset.range m, a j * (h ^ 2) ^ j * (1 / 4) ^ j := by
      rw [hquotient _ (by simp [hne])]
      simp only [nat_eq, div_eq_mul_one_div h, mul_pow, mul_assoc]
      norm_num
    rw [extrapolate, hcoarse, hquotient h hne, hfine]
    simp only [Finset.sum_mul, ← Finset.sum_sub_distrib, nat_eq, Differencing.weight]
    apply Finset.sum_congr rfl
    intro j _
    push_cast
    ring

/-- The extrapolation keeps the first term, and cancels those after it up to its order. -/
theorem sum_weight (differencing : Differencing) (a : Nat → α) (m : Nat) :
  ∑ j ∈ Finset.range (m + differencing.order / 2), a j * differencing.weight j
    = a 0 + ∑ j ∈ Finset.range m,
      a (j + differencing.order / 2) * differencing.weight (j + differencing.order / 2)
  := by
  cases differencing with
  | central =>
    simp only [Differencing.order, Differencing.weight]
    rw [Nat.div_self two_pos, Finset.sum_range_succ', mul_one, add_comm]
  | ridders =>
    simp only [Differencing.order, Differencing.weight]
    rw [Finset.sum_range_succ', Finset.sum_range_succ', Finset.sum_range_succ', add_comm]
    norm_num

/-- What the error of the derivative of `p` by differences is, apart from the power of the step: a
polynomial in the point, whose coefficients are polynomials in the step. -/
noncomputable def remainder (differencing : Differencing) (p : α[X]) : α[X][Y] :=
  ∑ j ∈ Finset.range p.natDegree,
    C (hasseDeriv (differencing.order + 2 * j + 1) p
        * C (differencing.weight (j + differencing.order / 2))) * X ^ (2 * j)

theorem remainder_eq_zero {differencing : Differencing} {p : α[X]}
    (h : p.natDegree ≤ differencing.order) :
  remainder differencing p = 0
  := by
  apply Finset.sum_eq_zero
  intro j _
  rw [hasseDeriv_eq_zero_of_lt_natDegree, zero_mul, C_0, zero_mul]
  omega

/-- The derivative of a polynomial by differences. -/
theorem extrapolate_centralQuotient (differencing : Differencing) (p : α[X]) (x : α) {h : α}
    (hne : h ≠ 0) :
  extrapolate (centralQuotient (fun t => p.eval t) x) h differencing
    = p.derivative.eval x + h ^ differencing.order * (remainder differencing p).evalEval x h
  := by
  have horder : differencing.order = 2 * (differencing.order / 2) := by
    cases differencing <;> rfl
  have hpos : 0 < differencing.order := by
    cases differencing <;> decide
  rw [extrapolate_sum (m := p.natDegree + differencing.order / 2)
      (fun k hk => centralQuotient_eval p x hk (by omega)) hne,
    sum_weight, hasseDeriv_one, pow_zero, mul_one, remainder, evalEval_finsetSum, Finset.mul_sum]
  congr 1
  apply Finset.sum_congr rfl
  intro j _
  rw [evalEval_mul, evalEval_C, evalEval_pow, evalEval_X, eval_mul, eval_C, ← pow_mul, mul_add,
    ← horder, pow_add, add_comm (2 * j)]
  ring

/-- The derivative by differences is exact up to the degree that is the order. -/
theorem extrapolate_centralQuotient_exact {differencing : Differencing} {p : α[X]}
    (hdegree : p.natDegree ≤ differencing.order) (x : α) {h : α} (hne : h ≠ 0) :
  extrapolate (centralQuotient (fun t => p.eval t) x) h differencing = p.derivative.eval x
  := by
  rw [extrapolate_centralQuotient differencing p x hne, remainder_eq_zero hdegree, evalEval_zero,
    mul_zero, add_zero]

theorem derivative_eval {p : Poly α} {options : Options α}
    (hdegree : p.degree ≤ options.differencing.order) (x : α) :
  derivative p.eval x options = p.derivative.eval x
  := by
  have hstep : (ratio 1 1000 : α) ≠ 0 := by
    rw [ratio_eq]
    norm_num
  have hvalues : p.eval = fun t => p.toPolynomial.eval t := by
    funext t
    exact (p.eval_toPolynomial t).symm
  rw [derivative, hvalues, p.eval_derivative]
  exact extrapolate_centralQuotient_exact (p.natDegree_toPolynomial_le.trans hdegree) x hstep

/-! ### Several variables -/

variable {m n : Nat}

/-- Along each axis through `x` the function `f` is a polynomial of a degree up to `d`, which
`along` gives. -/
def PolynomialAlong (f : Vec α n → α) (x : Vec α n) (d : Nat) (along : Fin n → α[X]) : Prop :=
  ∀ j, (along j).natDegree ≤ d ∧ ∀ t, f (x.set j t) = (along j).eval t

/-- The gradient is made of the derivatives along the axes. -/
theorem PolynomialAlong.gradient {f : Vec α n → α} {x : Vec α n} {options : Options α}
    {along : Fin n → α[X]} (hf : PolynomialAlong f x options.differencing.order along)
    (hspacing : options.spacing ≠ 0) (j : Fin n) :
  gradient f x options j = (along j).derivative.eval (x j)
  := by
  obtain ⟨hdegree, hvalues⟩ := hf j
  have hquotient :
      partialQuotient f x j = centralQuotient (fun t => (along j).eval t) (x j) := by
    funext h
    rw [partialQuotient, centralQuotient, Vec.ahead, Vec.behind, hvalues, hvalues]
  rw [Numerics.gradient, Vec.get_ofFn, hquotient]
  exact extrapolate_centralQuotient_exact hdegree (x j) hspacing

/-- The Jacobian is made of the derivatives of the values along the axes. -/
theorem PolynomialAlong.jacobian {f : Vec α n → Vec α m} {x : Vec α n} {options : Options α}
    {along : Fin m → Fin n → α[X]}
    (hf : ∀ i, PolynomialAlong (fun z => f z i) x options.differencing.order (along i))
    (hspacing : options.spacing ≠ 0) (i : Fin m) (j : Fin n) :
  jacobian f x options i j = (along i j).derivative.eval (x j)
  := by
  rw [← (hf i).gradient hspacing j, ← row_jacobian]
  rfl

/-- Differences of polynomials: the error of a derivative is the power of the step that is the order
of the differencing, times a polynomial in the point and the step, and up to the degree that is the
order there is none. So derivatives, gradients and Jacobians of such polynomials are exact. -/
theorem differences_of_polynomials (options : Options α) :
  (∀ p : α[X], ∃ error : α[X][Y], ∀ x h, h ≠ 0 →
    extrapolate (centralQuotient (fun t => p.eval t) x) h options.differencing
    = p.derivative.eval x + h ^ options.differencing.order * error.evalEval x h)
  ∧ (∀ p : α[X], p.natDegree ≤ options.differencing.order → ∀ x h, h ≠ 0 →
    extrapolate (centralQuotient (fun t => p.eval t) x) h options.differencing
    = p.derivative.eval x)
  ∧ (∀ p : Poly α, p.degree ≤ options.differencing.order → ∀ x,
    derivative p.eval x options = p.derivative.eval x)
  ∧ (options.spacing ≠ 0 → ∀ n (f : Vec α n → α) x along,
    PolynomialAlong f x options.differencing.order along → ∀ j,
    gradient f x options j = (along j).derivative.eval (x j))
  ∧ (options.spacing ≠ 0 → ∀ m n (f : Vec α n → Vec α m) x (along : Fin m → Fin n → α[X]),
    (∀ i, PolynomialAlong (fun z => f z i) x options.differencing.order (along i)) → ∀ i j,
    jacobian f x options i j = (along i j).derivative.eval (x j))
  := by
  refine ⟨?_, ?_, ?_, ?_, ?_⟩
  · intro p
    use remainder options.differencing p
    intro x h hne
    apply extrapolate_centralQuotient _ p x hne
  · intro p hdegree x h hne
    apply extrapolate_centralQuotient_exact hdegree x hne
  · intro p hdegree x
    apply derivative_eval hdegree
  · intro hspacing n f x along hf j
    apply hf.gradient hspacing
  · intro hspacing m n f x along hf i j
    apply PolynomialAlong.jacobian hf hspacing

/-- Powers of one variable, a function of two variables that is a sextic along one axis, and
products of two variables. -/
theorem differences_of_powers :
  ∃ options : Options ℚ, options.differencing = .ridders ∧ options.spacing ≠ 0
    ∧ (∃ error : ℚ[X][Y], ∀ x h : ℚ, h ≠ 0 →
      extrapolate (centralQuotient (fun t => t ^ 8) x) h options.differencing
      = 8 * x ^ 7 + h ^ 6 * error.evalEval x h)
    ∧ extrapolate (centralQuotient (fun t => t ^ 6) 1) (1 / 2 : ℚ) options.differencing = 6
    ∧ derivative (Poly.mk [1, 2, 0, 0, 0, 0, 3]).eval 2 options = 578
    ∧ gradient (fun v : Vec ℚ 2 => v 0 ^ 6 * v 1) (Vec.ofFn ![1, 2]) options 0 = 12
    ∧ jacobian (fun v : Vec ℚ 2 => (Vec.ofFn ![v 0 * v 0, v 0 * v 1] : Vec ℚ 2))
      (Vec.ofFn ![3, 4]) options 1 0 = 4
  := by
  obtain ⟨options, hridders, hspacing⟩ :
      ∃ options : Options ℚ, options.differencing = .ridders ∧ options.spacing ≠ 0 :=
    ⟨{ Options.standard 1 with differencing := .ridders }, rfl, Options.spacing_standard_ne_zero 1⟩
  have horder : options.differencing.order = 6 := by rw [hridders, Differencing.order]
  have hdegree (k : Nat) (a : ℚ) (hk : k ≤ 6) : (monomial k a).natDegree ≤ 6 :=
    (natDegree_monomial_le a).trans hk
  obtain ⟨hquotient, hexact, hderivative, hgradient, hjacobian⟩ :=
    differences_of_polynomials options
  rw [horder] at hquotient hexact hderivative hgradient hjacobian
  refine ⟨options, hridders, hspacing, ?_, ?_, ?_, ?_, ?_⟩
  · obtain ⟨error, herror⟩ := hquotient (monomial 8 1)
    use error
    intro x h hne
    have hx := herror x h hne
    norm_num [derivative_monomial] at hx
    exact hx
  · have hhalf := hexact (monomial 6 1) (hdegree 6 1 (by decide)) 1 (1 / 2) (by norm_num)
    norm_num [derivative_monomial] at hhalf ⊢
    exact hhalf
  · rw [hderivative _ (by decide)]
    norm_num [Poly.derivative, Poly.eval]
  · have halong : PolynomialAlong (fun v : Vec ℚ 2 => v 0 ^ 6 * v 1) (Vec.ofFn ![1, 2]) 6
        ![monomial 6 2, monomial 1 1] := by
      intro j
      fin_cases j
      · exact ⟨hdegree 6 2 (by decide), fun t => by simp [Vec.get_set, mul_comm]⟩
      · exact ⟨hdegree 1 1 (by decide), fun t => by simp [Vec.get_set]⟩
    rw [hgradient hspacing 2 _ _ _ halong]
    norm_num [derivative_monomial]
  · have halong : ∀ i, PolynomialAlong
        (fun v : Vec ℚ 2 => (Vec.ofFn ![v 0 * v 0, v 0 * v 1] : Vec ℚ 2) i) (Vec.ofFn ![3, 4]) 6
        (![![monomial 2 1, monomial 0 9], ![monomial 1 4, monomial 1 3]] i) := by
      intro i j
      fin_cases i <;> fin_cases j
      · exact ⟨hdegree 2 1 (by decide), fun t => by simp [Vec.get_set, sq]⟩
      · exact ⟨hdegree 0 9 (by decide), fun t => by norm_num [Vec.get_set]⟩
      · exact ⟨hdegree 1 4 (by decide), fun t => by simp [Vec.get_set, mul_comm]⟩
      · exact ⟨hdegree 1 3 (by decide), fun t => by simp [Vec.get_set]⟩
    rw [hjacobian hspacing 2 2 _ _ _ halong]
    norm_num [derivative_monomial]

end Numerics
