import Mathlib.Analysis.Calculus.Deriv.Pow
import Mathlib.Analysis.Calculus.Deriv.Slope
import Numerics.Proofs.Difference.Gradient
import Numerics.Proofs.Minimize.Multipliers
import Numerics.Proofs.Scalar.Power

/-!
# Gradients of penalized objectives

A penalized objective is the objective plus a function of each constraint: the squared violation
with a weight, or the term of the augmented Lagrangian. These functions have derivatives everywhere,
since the square of a violation leaves zero without a corner, and their derivatives are the
multipliers for which the gradient is assembled. So the assembled gradient is the gradient of the
penalized objective wherever the differences that it is made of are gradients.
-/

namespace Numerics

open Filter Polynomial Topology

variable {n p q : Nat}

/-! ### The squared excess -/

namespace Constraints

/-- The square of an excess is differentiable, also where the excess begins: the slope from there is
the excess, which is continuous. -/
theorem hasDerivAt_excess_sq (t : ℝ) :
  HasDerivAt (fun v => excess v ^ 2) (2 * excess t) t
  := by
  simp only [excess_eq]
  obtain hneg | rfl | hpos := lt_trichotomy t 0
  · have hzero : (fun v : ℝ => max v 0 ^ 2) =ᶠ[𝓝 t] fun _ => 0 := by
      filter_upwards [eventually_lt_nhds hneg] with v hv
      rw [max_eq_right hv.le, zero_pow two_ne_zero]
    rw [max_eq_right hneg.le, mul_zero]
    exact (hasDerivAt_const t 0).congr_of_eventuallyEq hzero
  · have hslope : ∀ v : ℝ, v ≠ 0 → slope (fun v : ℝ => max v 0 ^ 2) 0 v = max v 0 := by
      intro v hv
      rw [slope_def_field, max_self, zero_pow two_ne_zero, sub_zero, sub_zero]
      obtain h | h := le_total v 0
      · rw [max_eq_right h, zero_pow two_ne_zero, zero_div]
      · rw [max_eq_left h, sq, mul_div_cancel_right₀ v hv]
    rw [max_self, mul_zero, hasDerivAt_iff_tendsto_slope]
    have hcontinuous : Tendsto (fun v : ℝ => max v 0) (𝓝[≠] 0) (𝓝 0) := by
      have hmax : Continuous fun v : ℝ => max v 0 := continuous_id.max continuous_const
      apply (hmax.tendsto' 0 0 (max_self 0)).mono_left nhdsWithin_le_nhds
    apply hcontinuous.congr'
    filter_upwards [self_mem_nhdsWithin] with v hv
    exact (hslope v hv).symm
  · have hsq : (fun v : ℝ => max v 0 ^ 2) =ᶠ[𝓝 t] fun v => v ^ 2 := by
      filter_upwards [eventually_gt_nhds hpos] with v hv
      rw [max_eq_left hv.le]
    rw [max_eq_left hpos.le]
    have h := (hasDerivAt_pow 2 t).congr_of_eventuallyEq hsq
    simpa using h

/-! ### Functions of the constraints -/

/-- The gradients of the objective and of the constraints by differences are their gradients at `z`.
-/
structure ExactAt (f : Vec ℝ n → ℝ) (c : Constraints ℝ n p q) (options : Options ℝ)
    (z : Vec ℝ n) : Prop where
  objective : HasGradient f (gradient f z options) z
  atMostZero : ∀ i, HasGradient (c.atMostZero i) (gradient (c.atMostZero i) z options) z
  zero : ∀ j, HasGradient (c.zero j) (gradient (c.zero j) z options) z

variable {f : Vec ℝ n → ℝ} {c : Constraints ℝ n p q} {options : Options ℝ} {z : Vec ℝ n}

theorem toEuclidean_lagrangianGradient (forAtMostZero : Vec ℝ p) (forZero : Vec ℝ q) :
  (c.lagrangianGradient f options forAtMostZero forZero z).toEuclidean
    = (gradient f z options).toEuclidean
      + ∑ j, (gradient (c.zero j) z options * forZero j).toEuclidean
      + ∑ i, (gradient (c.atMostZero i) z options * forAtMostZero i).toEuclidean
  := by
  ext k
  simp only [Vec.toEuclidean_mul]
  simp [Vec.toEuclidean, lagrangianGradient, mul_comm]

/-- The gradient of the objective plus functions of the constraints is that of the Lagrangian whose
multipliers are the derivatives of these functions. -/
theorem ExactAt.lagrangianGradient (h : ExactAt f c options z) {φ : Fin p → ℝ → ℝ}
    {ψ : Fin q → ℝ → ℝ} {forAtMostZero : Vec ℝ p} {forZero : Vec ℝ q}
    (hφ : ∀ i, HasDerivAt (φ i) (forAtMostZero i) (c.atMostZero i z))
    (hψ : ∀ j, HasDerivAt (ψ j) (forZero j) (c.zero j z)) :
  HasGradient (fun v => f v + ∑ j, ψ j (c.zero j v) + ∑ i, φ i (c.atMostZero i v))
    (c.lagrangianGradient f options forAtMostZero forZero z) z
  := by
  rw [HasGradient, hasGradientAt_iff_hasFDerivAt, toEuclidean_lagrangianGradient, map_add, map_add,
    map_sum, map_sum]
  apply HasFDerivAt.add
  · apply HasFDerivAt.add
    · exact h.objective.hasFDerivAt
    · apply HasFDerivAt.fun_sum
      intro j _
      exact ((h.zero j).comp (hψ j)).hasFDerivAt
  · apply HasFDerivAt.fun_sum
    intro i _
    exact ((h.atMostZero i).comp (hφ i)).hasFDerivAt

end Constraints

open Constraints

/-! ### The exterior penalty -/

namespace Exterior

variable (f : Vec ℝ n → ℝ) (c : Constraints ℝ n p q) (weight : ℝ)

theorem objective_eq (z : Vec ℝ n) :
  objective f c weight z
    = f z + ∑ j, weight * c.zero j z ^ 2 + ∑ i, weight * excess (c.atMostZero i z) ^ 2
  := by
  simp only [objective, natPower_eq, foldl_add, zero_add, ← Finset.mul_sum]
  ring

variable {f c} {options : Options ℝ} {z : Vec ℝ n}

/-- The assembled gradient of the penalized objective is its gradient. -/
theorem hasGradient_objective (h : ExactAt f c options z) :
  HasGradient (objective f c weight) (slope f c weight options z) z
  := by
  have hφ : ∀ i, HasDerivAt (fun v => weight * excess v ^ 2) (forAtMostZero c weight z i)
      (c.atMostZero i z) := by
    intro i
    rw [forAtMostZero, Vec.get_ofFn]
    apply ((hasDerivAt_excess_sq (c.atMostZero i z)).const_mul weight).congr_deriv
    rw [nat_eq, Nat.cast_two]
    ring
  have hψ : ∀ j, HasDerivAt (fun v => weight * v ^ 2) (forZero c weight z j) (c.zero j z) := by
    intro j
    rw [forZero, Vec.get_ofFn]
    apply ((hasDerivAt_pow 2 (c.zero j z)).const_mul weight).congr_deriv
    rw [nat_eq, Nat.cast_two]
    ring
  rw [slope_eq, funext (objective_eq f c weight)]
  exact h.lagrangianGradient hφ hψ

end Exterior

/-! ### The augmented Lagrangian -/

namespace Lagrangian

variable (f : Vec ℝ n → ℝ) (c : Constraints ℝ n p q) (s : State ℝ n p q)

theorem objective_eq (z : Vec ℝ n) :
  objective f c s z
    = f z + ∑ j, (s.forZero j * c.zero j z + half * s.weight * c.zero j z * c.zero j z)
      + ∑ i, (shifted (s.forAtMostZero i) s.weight (c.atMostZero i z) ^ 2
        - s.forAtMostZero i ^ 2) / (s.weight + s.weight)
  := by
  simp only [objective, add_assoc, foldl_add, sq]

/-- The term of an inequality is differentiable, also where its shifted multiplier begins. -/
theorem hasDerivAt_shifted_sq (multiplier : ℝ) {weight : ℝ} (hweight : weight ≠ 0) (t : ℝ) :
  HasDerivAt (fun v => (shifted multiplier weight v ^ 2 - multiplier ^ 2) / (weight + weight))
    (shifted multiplier weight t) t
  := by
  have hinner : HasDerivAt (fun v => multiplier + weight * v) weight t := by
    simpa using ((hasDerivAt_id t).const_mul weight).const_add multiplier
  have houter := (hasDerivAt_excess_sq (multiplier + weight * t)).comp t hinner
  apply ((houter.sub_const (multiplier ^ 2)).div_const (weight + weight)).congr_deriv
  rw [shifted]
  field_simp
  ring

theorem hasDerivAt_multiplied (multiplier weight t : ℝ) :
  HasDerivAt (fun v => multiplier * v + half * weight * v * v) (multiplier + weight * t) t
  := by
  have hid := hasDerivAt_id t
  apply ((hid.const_mul multiplier).add ((hid.const_mul (half * weight)).mul hid)).congr_deriv
  simp only [half_eq, id]
  ring

variable {f c s} {options : Options ℝ} {z : Vec ℝ n}

/-- The assembled gradient of the augmented Lagrangian is its gradient. -/
theorem hasGradient_objective (hweight : s.weight ≠ 0) (h : ExactAt f c options z) :
  HasGradient (objective f c s) (slope f c options s z) z
  := by
  rw [slope_eq, funext (objective_eq f c s)]
  apply h.lagrangianGradient
    (φ := fun i v => (shifted (s.forAtMostZero i) s.weight v ^ 2 - s.forAtMostZero i ^ 2)
      / (s.weight + s.weight))
    (ψ := fun j v => s.forZero j * v + half * s.weight * v * v)
  · intro i
    rw [update, Vec.get_ofFn]
    apply hasDerivAt_shifted_sq _ hweight
  · intro j
    rw [update, Vec.get_ofFn]
    apply hasDerivAt_multiplied

end Lagrangian

/-! ### Both penalties -/

namespace Constraints

variable {f : Vec ℝ n → ℝ} {c : Constraints ℝ n p q} {options : Options ℝ} {z : Vec ℝ n}

/-- Over the reals, where differences give the gradients of the objective and of the constraints:
the gradient that the exterior penalty assembles is that of its objective, with whatever weight, and
the gradient that the augmented Lagrangian assembles is that of its objective, with whatever
multipliers and any weight but zero. -/
theorem ExactAt.hasGradient_penalized (h : ExactAt f c options z) :
  (∀ weight, HasGradient (Exterior.objective f c weight) (Exterior.slope f c weight options z) z)
  ∧ ∀ s : Lagrangian.State ℝ n p q, s.weight ≠ 0 →
    HasGradient (Lagrangian.objective f c s) (Lagrangian.slope f c options s z) z
  := by
  constructor
  · intro weight
    apply Exterior.hasGradient_objective weight h
  · intro s hweight
    apply Lagrangian.hasGradient_objective hweight h

/-- A point at which the violation and the shifted multiplier of an inequality both begin. -/
theorem hasGradient_penalized_kink :
  let f : Vec ℝ 1 → ℝ := fun v => v 0 ^ 2
  let c : Constraints ℝ 1 1 1 := ⟨Vec.ofFn fun _ v => v 0 - 1, Vec.ofFn fun _ v => v 0 ^ 2 - 4⟩
  let options : Options ℝ := .standard (1 / 100)
  let s : Lagrangian.State ℝ 1 1 1 := ⟨0, 10, Vec.fill 3, 0, none⟩
  let z : Vec ℝ 1 := Vec.fill 1
  ExactAt f c options z
    ∧ c.atMostZero 0 z = 0
    ∧ s.forAtMostZero 0 + s.weight * c.atMostZero 0 z = 0
    ∧ s.weight ≠ 0
    ∧ HasGradient (Exterior.objective f c 1000) (Exterior.slope f c 1000 options z) z
    ∧ HasGradient (Lagrangian.objective f c s) (Lagrangian.slope f c options s z) z
  := by
  intro f c options s z
  have hspacing : options.spacing ≠ 0 := Options.spacing_standard_ne_zero _
  have hpolynomial : ∀ P : ℝ[X], P.natDegree ≤ 2 →
      HasGradient (fun v => P.eval (v 0)) (gradient (fun v => P.eval (v 0)) z options) z :=
    fun P hdegree => hasGradient_eval hdegree hspacing 0 z
  have hexact : ExactAt f c options z := by
    constructor
    · simpa [f] using hpolynomial (X ^ 2) (natDegree_X_pow_le 2)
    · intro i
      simpa [c] using hpolynomial (X - C 1) ((natDegree_X_sub_C_le 1).trans one_le_two)
    · intro j
      simpa [c] using hpolynomial (X ^ 2 - C 4) natDegree_X_pow_sub_C.le
  have hweight : s.weight ≠ 0 := by
    show (10 : ℝ) ≠ 0
    norm_num
  obtain ⟨hexterior, hlagrangian⟩ := hexact.hasGradient_penalized
  refine ⟨hexact, ?_, ?_, hweight, hexterior 1000, hlagrangian s hweight⟩
  · simp [c, z]
  · simp [s, c, z]

end Constraints

end Numerics
