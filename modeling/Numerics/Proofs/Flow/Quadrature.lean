import Mathlib.Algebra.Order.Field.Basic
import Mathlib.Analysis.Calculus.Deriv.Polynomial
import Mathlib.MeasureTheory.Integral.IntervalIntegral.FundThmCalculus
import Mathlib.Tactic.IntervalCases
import Mathlib.Tactic.NormNum
import Mathlib.Topology.Algebra.Polynomial
import Numerics.Proofs.Curve.Poly
import Numerics.Proofs.Flow.Observation

/-!
# Slopes that are polynomials of the time

A system whose slopes do not look at the state is integrated by quadrature: a step adds the weighted
slopes at the times of the stages. The times and the weights of a tableau are `ExactTo` a degree if
they integrate every power of the time up to that degree over the unit interval. Then a step from
any time integrates every polynomial up to that degree, by Taylor's formula at the time of the step,
and so does a run of any number of steps, because the integrals over its steps add up.

The integral of a polynomial is `integral`, the difference of the values of an antiderivative. It
makes sense for all exact scalars, and for the real numbers it is the integral of analysis.
-/

namespace Numerics

open Polynomial

variable {α : Type} [ExactScalar α] {n s : Nat}

/-! ### Integrals of polynomials -/

/-- The polynomial that has the derivative `p` and vanishes at zero. -/
noncomputable def antiderivative (p : α[X]) : α[X] :=
  p.sum fun k a => monomial (k + 1) (a / (k + 1))

/-- The integral of `p` from `a` to `b`. -/
noncomputable def integral (p : α[X]) (a b : α) : α :=
  (antiderivative p).eval b - (antiderivative p).eval a

theorem derivative_antiderivative (p : α[X]) :
  (antiderivative p).derivative = p
  := by
  have hterm : ∀ k a, (monomial (k + 1) (a / (k + 1) : α)).derivative = monomial k a := by
    intro k a
    have hk : (k + 1 : α) ≠ 0 := Nat.cast_add_one_ne_zero k
    rw [derivative_monomial, Nat.add_sub_cancel, Nat.cast_add_one, div_mul_cancel₀ _ hk]
  rw [antiderivative, sum_def, derivative_sum]
  simp only [hterm]
  exact p.as_sum_support.symm

/-- The integral of a derivative is the difference of the values. -/
theorem integral_derivative (q : α[X]) (a b : α) :
  integral q.derivative a b = q.eval b - q.eval a
  := by
  have hzero : (antiderivative q.derivative - q).derivative = 0 := by
    rw [derivative_sub, derivative_antiderivative, sub_self]
  obtain ⟨c, hc⟩ : ∃ c, antiderivative q.derivative = q + C c :=
    ⟨_, sub_eq_iff_eq_add'.mp (eq_C_of_derivative_eq_zero hzero)⟩
  rw [integral, hc, eval_add, eval_add, eval_C, eval_C, add_sub_add_right_eq_sub]

theorem integral_self (p : α[X]) (a : α) :
  integral p a a = 0
  := by
  apply sub_self

theorem integral_add_integral (p : α[X]) (a b c : α) :
  integral p a b + integral p b c = integral p a c
  := by
  apply sub_add_sub_cancel'

/-- The integral from `t` to `t + h`, in powers of `h`. The Taylor coefficients of the
antiderivative are those of `p`, one place further. -/
theorem integral_eq_sum (p : α[X]) (t h : α) {m : Nat} (hm : p.natDegree < m) :
  integral p t (t + h)
    = ∑ k ∈ Finset.range m, (hasseDeriv k p).eval t * (h ^ (k + 1) / (k + 1))
  := by
  set q := antiderivative p with hq
  have hderivative : q.derivative = p := derivative_antiderivative p
  have hdegree : q.natDegree < m + 1 := by
    have hp := q.natDegree_derivative
    rw [hderivative] at hp
    omega
  have hterm : ∀ k, (hasseDeriv (k + 1) q).eval t * h ^ (k + 1)
      = (hasseDeriv k p).eval t * (h ^ (k + 1) / (k + 1)) := by
    intro k
    have hk : (k + 1 : α) ≠ 0 := Nat.cast_add_one_ne_zero k
    have hcomp := LinearMap.congr_fun (hasseDeriv_comp (R := α) k 1) q
    rw [LinearMap.comp_apply, hasseDeriv_one', hderivative, Nat.choose_succ_self_right,
      LinearMap.smul_apply] at hcomp
    rw [hcomp, eval_smul, nsmul_eq_mul, Nat.cast_add_one]
    field_simp
  rw [integral, ← hq, eval_add_eq_sum q t h hdegree, Finset.sum_range_succ', hasseDeriv_zero',
    pow_zero, mul_one, add_sub_cancel_right]
  exact Finset.sum_congr rfl fun k _ => hterm k

/-- The integral of a polynomial over the real numbers is the one of analysis. -/
theorem integral_real (p : ℝ[X]) (a b : ℝ) :
  integral p a b = ∫ t in a..b, p.eval t
  := by
  have hderiv : ∀ t ∈ Set.uIcc a b,
      HasDerivAt (fun t => (antiderivative p).eval t) (p.eval t) t := by
    intro t _
    have ht := (antiderivative p).hasDerivAt t
    rwa [derivative_antiderivative] at ht
  exact (intervalIntegral.integral_eq_sub_of_hasDerivAt hderiv
    (p.continuous.intervalIntegrable a b)).symm

/-! ### The quadrature of a tableau -/

namespace Tableau

/-- The weights of the stages, at their times, integrate the powers up to the degree `d` over the
unit interval. -/
def ExactTo (tab : Tableau α s) (d : Nat) : Prop :=
  ∀ k ≤ d, ∑ i, tab.weights i * tab.times i ^ k = 1 / (k + 1)

/-- The weighted values of a polynomial at the times of the stages. -/
theorem ExactTo.sum_eval {tab : Tableau α s} {d : Nat} (htab : tab.ExactTo d) {p : α[X]}
    (hp : p.natDegree ≤ d) (t h : α) :
  ∑ i, h * tab.weights i * p.eval (t + tab.times i * h) = integral p t (t + h)
  := by
  have hd : p.natDegree < d + 1 := Nat.lt_succ_of_le hp
  calc ∑ i, h * tab.weights i * p.eval (t + tab.times i * h)
    _ = ∑ i, ∑ k ∈ Finset.range (d + 1),
          (hasseDeriv k p).eval t * h ^ (k + 1) * (tab.weights i * tab.times i ^ k) := by
      apply Finset.sum_congr rfl
      intro i _
      rw [eval_add_eq_sum p _ _ hd, Finset.mul_sum]
      apply Finset.sum_congr rfl
      intro k _
      ring
    _ = ∑ k ∈ Finset.range (d + 1), (hasseDeriv k p).eval t * (h ^ (k + 1) / (k + 1)) := by
      rw [Finset.sum_comm]
      apply Finset.sum_congr rfl
      intro k hk
      rw [← Finset.mul_sum, htab k (Nat.le_of_lt_succ (Finset.mem_range.mp hk)), mul_one_div,
        mul_div_assoc]
    _ = integral p t (t + h) := (integral_eq_sum p t h hd).symm

theorem exactTo_midpoint :
  (midpoint : Tableau α 2).ExactTo 1
  := by
  intro k hk
  interval_cases k <;> simp [midpoint, Fin.sum_univ_succ, Vec.get]
  norm_num

theorem exactTo_kutta :
  (kutta : Tableau α 3).ExactTo 3
  := by
  intro k hk
  interval_cases k <;> simp [kutta, Fin.sum_univ_succ, Vec.get] <;> norm_num [ratio_eq]

theorem exactTo_classical :
  (classical : Tableau α 4).ExactTo 3
  := by
  intro k hk
  interval_cases k <;> simp [classical, Fin.sum_univ_succ, Vec.get] <;> norm_num [ratio_eq]

end Tableau

/-! ### Steps and runs -/

/-- The system whose slopes are the values of the polynomials `p` at the time, at any state. -/
noncomputable def VectorField.ofPolynomials (p : Fin n → α[X]) : VectorField α n :=
  fun t _ => Vec.ofFn fun c => (p c).eval t

/-- The state `x`, displaced by the integrals of the polynomials `p` from `a` to `b`. -/
noncomputable def displaced (p : Fin n → α[X]) (x : Vec α n) (a b : α) : Vec α n :=
  Vec.ofFn fun c => x c + integral (p c) a b

theorem displaced_self (p : Fin n → α[X]) (x : Vec α n) (a : α) :
  displaced p x a a = x
  := by
  ext c
  rw [displaced, Vec.get_ofFn, integral_self, add_zero]

theorem displaced_displaced (p : Fin n → α[X]) (x : Vec α n) (a b c : α) :
  displaced p (displaced p x a b) b c = displaced p x a c
  := by
  ext i
  simp only [displaced, Vec.get_ofFn, add_assoc, integral_add_integral]

namespace Tableau.ExactTo

variable {tab : Tableau α s} {d : Nat} {p : Fin n → α[X]}

/-- A step displaces the state by the integrals over the step. -/
theorem advance (htab : tab.ExactTo d) (hp : ∀ c, (p c).natDegree ≤ d) (t : α) (x : Vec α n)
    (h : α) :
  tab.advance (.ofPolynomials p) t x h = displaced p x t (t + h)
  := by
  ext c
  have hc := congrFun (tab.toFun_advance (.ofPolynomials p) t x h) c
  rw [Vec.toFun_apply, Pi.add_apply, Finset.sum_apply] at hc
  rw [hc, displaced, Vec.get_ofFn, ← htab.sum_eval (hp c)]
  congr 1
  apply Finset.sum_congr rfl
  intro i _
  rw [Pi.smul_apply, smul_eq_mul, slope_eq, VectorField.ofPolynomials, Vec.toFun_ofFn]

/-- Any number of steps displace it by the integrals from the first time to the last one, which is
exact, though it is accumulated. -/
theorem iterate_step (htab : tab.ExactTo d) (hp : ∀ c, (p c).natDegree ≤ d) (t : α) (x : Vec α n)
    (h : α) (k : Nat) :
  (Moment.step tab (.ofPolynomials p) h)^[k] ⟨t, x⟩ = ⟨t + k * h, displaced p x t (t + k * h)⟩
  := by
  induction k with
  | zero =>
    rw [Nat.cast_zero, zero_mul, add_zero, displaced_self]
    rfl
  | succ k ih =>
    have htime : t + k * h + h = t + (k + 1 : ℕ) * h := by
      rw [Nat.cast_add_one, add_one_mul, add_assoc]
    rw [Function.iterate_succ_apply', ih, Moment.step, htab.advance hp, htime,
      displaced_displaced]

end Tableau.ExactTo

namespace Integrator

/-- From any state `x`, at any time `t` and in steps of any length, the method `tab` lists the
states that are `x`, displaced by the integrals of the polynomials `p` from `t` to the times of the
steps, on the system whose slopes these polynomials are. -/
def FollowsIntegrals (tab : Tableau α s) (p : Fin n → α[X]) : Prop :=
  ∀ (t : α) (x : Vec α n) (h : α) (k : Nat), ∃ states,
    ((unstarted (.ofPolynomials p) tab).start t x).solve h k = .ok states
      ∧ states.length = k + 1
      ∧ ∀ i ≤ k, states[i]? = some (displaced p x t (t + i * h))

theorem followsIntegrals_of_exactTo {tab : Tableau α s} {d : Nat} (htab : tab.ExactTo d)
    {p : Fin n → α[X]} (hp : ∀ c, (p c).natDegree ≤ d) :
  FollowsIntegrals tab p
  := by
  intro t x h k
  use statesFrom tab (.ofPolynomials p) h k ⟨t, x⟩, rfl, length_statesFrom tab _ h k ⟨t, x⟩
  intro i hi
  rw [getElem?_statesFrom hi, htab.iterate_step hp]

/-- In exact arithmetic. If the slopes of a system are polynomials of the time alone, then from any
state, at any time and in any number of steps of any length, the midpoint rule for polynomials up to
the degree one, and Kutta's rule and the classical rule for polynomials up to the degree three, list
the states that are displaced by the integrals of the slopes from the first time to the times of
the steps. The integral of a derivative is the difference of the values, and the one of a polynomial
over the real numbers is that of analysis. -/
theorem solve_follows_integrals :
  (∀ p : Fin n → α[X], (∀ c, (p c).natDegree ≤ 1) → FollowsIntegrals .midpoint p)
    ∧ (∀ p : Fin n → α[X], (∀ c, (p c).natDegree ≤ 3) →
      FollowsIntegrals .kutta p ∧ FollowsIntegrals .classical p)
    ∧ (∀ (q : α[X]) (a b : α), integral q.derivative a b = q.eval b - q.eval a)
    ∧ ∀ (q : ℝ[X]) (a b : ℝ), integral q a b = ∫ t in a..b, q.eval t
  := by
  refine ⟨?_, ?_, integral_derivative, integral_real⟩
  · intro p hp
    exact followsIntegrals_of_exactTo Tableau.exactTo_midpoint hp
  · intro p hp
    constructor
    · exact followsIntegrals_of_exactTo Tableau.exactTo_kutta hp
    · exact followsIntegrals_of_exactTo Tableau.exactTo_classical hp

/-- A body that falls ever faster, and one that is pulled ever harder. -/
theorem solve_follows_integrals_fall :
  let fall : Fin 1 → ℚ[X] := fun _ => (X ^ 2).derivative
  let pull : Fin 2 → ℚ[X] := fun c => (X ^ (c.val + 3)).derivative
  (∀ c, (fall c).natDegree ≤ 1)
    ∧ (∀ c, (pull c).natDegree ≤ 3)
    ∧ (∃ states, ((unstarted (.ofPolynomials fall) .midpoint).start 1 (Vec.fill 1)).solve 1 5
        = .ok states ∧ states[5]? = some (Vec.fill 36))
    ∧ ∃ states, ((unstarted (.ofPolynomials pull) .classical).start 0 0).solve (-1 / 2) 4
        = .ok states ∧ states[4]? = some (Vec.ofFn ![-8, 16] : Vec ℚ 2)
  := by
  intro fall pull
  have hfall : ∀ c, (fall c).natDegree ≤ 1 := by
    intro c
    rw [natDegree_derivative, natDegree_X_pow]
  have hpull : ∀ c, (pull c).natDegree ≤ 3 := by
    intro c
    rw [natDegree_derivative, natDegree_X_pow]
    omega
  obtain ⟨hmidpoint, -, hderivative, -⟩ := solve_follows_integrals (α := ℚ) (n := 1)
  obtain ⟨-, hothers, -, -⟩ := solve_follows_integrals (α := ℚ) (n := 2)
  obtain ⟨falls, hfalls, -, hfallsAt⟩ := hmidpoint fall hfall 1 (Vec.fill 1) 1 5
  obtain ⟨pulls, hpulls, -, hpullsAt⟩ := (hothers pull hpull).2 0 0 (-1 / 2) 4
  refine ⟨hfall, hpull, ⟨falls, hfalls, ?_⟩, pulls, hpulls, ?_⟩
  · rw [hfallsAt 5 le_rfl]
    congr 1
    ext c
    rw [displaced, Vec.get_ofFn, hderivative, Vec.get_fill, Vec.get_fill]
    norm_num
  · rw [hpullsAt 4 le_rfl]
    congr 1
    ext c
    rw [displaced, Vec.get_ofFn, hderivative, Vec.get_zero, Vec.get_ofFn]
    fin_cases c <;> norm_num

end Integrator

end Numerics
