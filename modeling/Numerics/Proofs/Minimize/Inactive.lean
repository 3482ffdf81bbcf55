import Mathlib.Algebra.Order.Field.Basic
import Numerics.Proofs.Coherence
import Numerics.Proofs.Scalar.Power

/-!
# Constraints that hold everywhere

Constraints are `Inactive` if they hold at every point. Then there is no violation to be penalized:
as functions of the point, the objective with either penalty is the objective without it, and the
gradient that is put together from those of the constraints is that of the objective. So the first
round is the minimization without constraints, search by search, and because it ends at a feasible
point, there is no second one.
-/

namespace Numerics

theorem outcome_minimize {α : Type} [RealScalar α] {n : Nat} (f : Vec α n → α) (x₀ : Vec α n)
    (options : Options α) :
  (minimize f x₀ options).outcome
    = (minimizeWith f (fun x => gradient f x options) x₀ options).outcome
  := Run.outcome_announce _ _

open Constraints

variable {α : Type} [ExactScalar α] {n p q : Nat} {c : Constraints α n p q} {options : Options α}

/-! ### Nothing is violated -/

namespace Constraints

/-- The constraints hold at every point. -/
structure Inactive (c : Constraints α n p q) : Prop where
  nonpos : ∀ i z, c.atMostZero i z ≤ 0
  zero : ∀ j z, c.zero j z = 0

theorem Inactive.excess_eq_zero (hc : c.Inactive) (i : Fin p) (z : Vec α n) :
  excess (c.atMostZero i z) = 0
  := by
  rw [excess_eq, max_eq_right (hc.nonpos i z)]

theorem Inactive.violation_lt (hc : c.Inactive) (htol : 0 < options.tolerance) (x : Vec α n) :
  c.violation x < options.tolerance
  := by
  refine lt_of_le_of_lt ?_ htol
  apply (violation_le_iff 0).mpr
  refine ⟨⟨le_rfl, fun i => hc.nonpos i x⟩, ?_⟩
  intro j
  rw [hc.zero, abs_zero]

/-- With multipliers of zero, nothing is added to the gradient of the objective. -/
theorem lagrangianGradient_zero (f : Vec α n → α) (c : Constraints α n p q) (options : Options α)
    {forAtMostZero : Vec α p} {forZero : Vec α q} (hi : ∀ i, forAtMostZero i = 0)
    (hj : ∀ j, forZero j = 0) (x : Vec α n) :
  c.lagrangianGradient f options forAtMostZero forZero x = gradient f x options
  := by
  ext k
  simp [lagrangianGradient, hi, hj]

/-- A round that is feasible wherever it ends. -/
theorem Inactive.outcome_round (hc : c.Inactive) (htol : 0 < options.tolerance)
    (f : Vec α n → α) {σ : Type} (inner : Run α (Minimum α n)) (event : Minimum α n → Event α)
    (next : Minimum α n → σ) (round : Nat) :
  (do
    let m ← inner
    Run.announce (event m)
    if c.violation m.x < options.tolerance then
      return .done (← endFeasible f m.x (round + 1) m.converged)
    else
      return .next (next m) : Run α (Round σ (Minimum α n))).outcome
    = (inner.outcome.map fun m => ⟨m.x, f m.x, round + 1, m.converged⟩).map Round.done
  := by
  simp only [if_pos (hc.violation_lt htol _)]
  rw [Run.outcome_bind]
  cases inner.outcome <;> rfl

end Constraints

/-! ### The exterior penalty -/

namespace Exterior

theorem objective_of_inactive (hc : c.Inactive) (f : Vec α n → α) (weight : α) :
  objective f c weight = f
  := by
  funext z
  simp only [objective, hc.excess_eq_zero, hc.zero, natPower_eq, zero_pow two_ne_zero]
  rw [foldl_eq_self fun acc _ => add_zero acc, foldl_eq_self fun acc _ => add_zero acc, add_zero,
    mul_zero, add_zero]

theorem slope_of_inactive (hc : c.Inactive) (f : Vec α n → α) (weight : α) (options : Options α) :
  slope f c weight options = fun z => gradient f z options
  := by
  funext z
  rw [slope_eq]
  apply lagrangianGradient_zero
  · intro i
    apply forAtMostZero_of_nonpos weight z (hc.nonpos i z)
  · intro j
    rw [forZero, Vec.get_ofFn, hc.zero, mul_zero]

theorem outcome_minimum_of_inactive (hc : c.Inactive) (f : Vec α n → α) (x₀ : Vec α n)
    (htol : 0 < options.tolerance) (hrounds : 0 < options.penaltyRounds) :
  (minimum f c x₀ options).outcome
    = (minimize f x₀ options).outcome.map fun m => ⟨m.x, f m.x, 1, m.converged⟩
  := by
  rw [outcome_minimize]
  apply Run.outcome_iterate_of_done _ hrounds
  rw [step, objective_of_inactive hc, slope_of_inactive hc]
  apply hc.outcome_round htol

end Exterior

/-! ### The augmented Lagrangian -/

namespace Lagrangian

/-- No violation has left a multiplier so far. -/
structure Untouched (s : State α n p q) : Prop where
  weight_nonneg : 0 ≤ s.weight
  forAtMostZero_eq : ∀ i, s.forAtMostZero i = 0
  forZero_eq : ∀ j, s.forZero j = 0

variable {s : State α n p q}

theorem Untouched.shifted_eq (hs : Untouched s) (hc : c.Inactive) (i : Fin p) (z : Vec α n) :
  shifted (s.forAtMostZero i) s.weight (c.atMostZero i z) = 0
  := by
  rw [shifted, excess_eq, hs.forAtMostZero_eq, zero_add]
  apply max_eq_right
  exact mul_nonpos_of_nonneg_of_nonpos hs.weight_nonneg (hc.nonpos i z)

theorem Untouched.objective_eq (hs : Untouched s) (hc : c.Inactive) (f : Vec α n → α) :
  objective f c s = f
  := by
  funext z
  simp only [objective]
  rw [foldl_eq_self, foldl_eq_self]
  · intro v j
    rw [hc.zero, mul_zero, mul_zero, add_zero, add_zero]
  · intro v i
    rw [hs.shifted_eq hc, hs.forAtMostZero_eq, mul_zero, sub_zero, zero_div, add_zero]

theorem Untouched.slope_eq (hs : Untouched s) (hc : c.Inactive) (f : Vec α n → α)
    (options : Options α) :
  slope f c options s = fun z => gradient f z options
  := by
  funext z
  rw [Lagrangian.slope_eq]
  apply lagrangianGradient_zero
  · intro i
    rw [update, Vec.get_ofFn, hs.shifted_eq hc]
  · intro j
    rw [update, Vec.get_ofFn, hs.forZero_eq, hc.zero, mul_zero, add_zero]

theorem start_untouched (options : Options α) (x₀ : Vec α n)
    (hweight : 0 ≤ options.lagrangianWeight) :
  Untouched (start options x₀ : State α n p q)
  := ⟨hweight, fun _ => Vec.get_zero _, fun _ => Vec.get_zero _⟩

theorem outcome_minimum_of_inactive (hc : c.Inactive) (f : Vec α n → α) (x₀ : Vec α n)
    (htol : 0 < options.tolerance) (hrounds : 0 < options.penaltyRounds)
    (hweight : 0 ≤ options.lagrangianWeight) :
  (minimum f c x₀ options).outcome
    = (minimize f x₀ options).outcome.map fun m => ⟨m.x, f m.x, 1, m.converged⟩
  := by
  have hs : Untouched (start options x₀ : State α n p q) := start_untouched options x₀ hweight
  rw [outcome_minimize]
  show (iterate (step f c options) _ options.penaltyRounds 0 (start options x₀)).outcome = _
  apply Run.outcome_iterate_of_done _ hrounds
  rw [step, hs.objective_eq hc, hs.slope_eq hc]
  apply hc.outcome_round htol

end Lagrangian

/-! ### Both penalties -/

/-- With exact scalars, a minimization under constraints that hold everywhere is the minimization
without constraints, whatever the methods are: it ends at the same point, with the same value, and
converged or not, or with the same error, and takes one round. Without any constraints it is the
same run. -/
theorem minimizeUnder_inactive (f : Vec α n → α) (c : Constraints α n p q) (hc : c.Inactive)
    (x₀ : Vec α n) (options : Options α) (htol : 0 < options.tolerance)
    (hrounds : 0 < options.penaltyRounds) (hweight : 0 < options.lagrangianWeight) :
  (p = 0 ∧ q = 0 → minimizeUnder f c x₀ options = minimize f x₀ options)
    ∧ (¬ (p = 0 ∧ q = 0) → (minimizeUnder f c x₀ options).outcome
      = (minimize f x₀ options).outcome.map fun m => { m with iterations := 1 })
  := by
  constructor
  · intro hnone
    rw [minimizeUnder, if_pos hnone]
  · intro hsome
    have hvalue : (minimize f x₀ options).outcome.map (fun m => ⟨m.x, f m.x, 1, m.converged⟩)
        = (minimize f x₀ options).outcome.map fun m => { m with iterations := 1 } := by
      cases hm : (minimize f x₀ options).outcome with
      | error e => rfl
      | ok m =>
        rw [Except.map, Except.map, ← (minimize_coherent f x₀ options).of_ok m hm]
    rw [minimizeUnder, if_neg hsome, ← hvalue]
    cases options.penalty with
    | exterior => exact Exterior.outcome_minimum_of_inactive hc f x₀ htol hrounds
    | lagrangian => exact Lagrangian.outcome_minimum_of_inactive hc f x₀ htol hrounds hweight.le

/-- A parabola, minimized where the opposite of a square is not positive. -/
theorem minimizeUnder_inactive_parabola :
  let f : Vec ℚ 1 → ℚ := fun x => x 0 * x 0 - 2 * x 0
  let c : Constraints ℚ 1 1 0 := ⟨Vec.ofFn fun _ x => -(x 0 * x 0), Vec.ofFn fun i => i.elim0⟩
  let options : Options ℚ := Options.standard (1 / 1000)
  c.Inactive
    ∧ 0 < options.tolerance
    ∧ 0 < options.penaltyRounds
    ∧ 0 < options.lagrangianWeight
    ∧ ∃ m, (minimize f 0 options).outcome = .ok m
      ∧ m.converged = true
      ∧ (minimizeUnder f c 0 options).outcome = .ok { m with iterations := 1 }
  := by
  intro f c options
  have hc : c.Inactive := by
    constructor
    · intro i z
      rw [Vec.get_ofFn]
      exact neg_nonpos.mpr (mul_self_nonneg _)
    · intro j
      exact j.elim0
  have htol : 0 < options.tolerance := by decide +kernel
  have hrounds : 0 < options.penaltyRounds := by decide
  have hweight : 0 < options.lagrangianWeight := by decide +kernel
  refine ⟨hc, htol, hrounds, hweight, ?_⟩
  obtain ⟨m, hm, hconverged⟩ : ∃ m, (minimize f 0 options).outcome = .ok m
      ∧ m.converged = true := by
    apply exists_of_any
    decide +kernel
  have hunder := (minimizeUnder_inactive f c hc 0 options htol hrounds hweight).2 (by decide)
  refine ⟨m, hm, hconverged, ?_⟩
  rw [hunder, hm]
  rfl

end Numerics
