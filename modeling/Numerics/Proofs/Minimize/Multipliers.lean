import Mathlib.Tactic.NormNum
import Mathlib.Tactic.Ring
import Numerics.Minimize.Constrained
import Numerics.Proofs.Mat.Matrix
import Numerics.Proofs.Minimize.Descent
import Numerics.Proofs.Scalar.Exact

/-!
# Multipliers at the end of a constrained minimization

A constrained minimization that ends at a minimum, as far as it can tell, leaves a `Certificate` of
it: its point violates no constraint by as much as the tolerance, and there are multipliers, those
of the inequalities not negative, for which the gradient of the Lagrangian is shorter than the
tolerance there.

Both penalties assemble the gradient of their objective so that it is the gradient of the Lagrangian
for some multipliers. For the exterior penalty these are the violations, times twice the weight. For
the augmented Lagrangian they are the multipliers that the round leaves behind.
-/

namespace Numerics

variable {α : Type} {n p q : Nat}

/-! ### Certificates -/

namespace Constraints

/-- The gradient of the Lagrangian at `x`, by differences. -/
def lagrangianGradient [ExactScalar α] (f : Vec α n → α) (c : Constraints α n p q)
    (options : Options α) (forAtMostZero : Vec α p) (forZero : Vec α q) (x : Vec α n) : Vec α n :=
  Vec.ofFn fun k => gradient f x options k
    + ∑ j, gradient (c.zero j) x options k * forZero j
    + ∑ i, gradient (c.atMostZero i) x options k * forAtMostZero i

/-- The point `x` is a minimum under the constraints, up to the tolerance: it is feasible, and the
given multipliers make it stationary. -/
structure Certificate [ExactScalar α] (f : Vec α n → α) (c : Constraints α n p q)
    (options : Options α) (x : Vec α n) (forAtMostZero : Vec α p) (forZero : Vec α q) : Prop where
  atMostZero_lt : ∀ i, c.atMostZero i x < options.tolerance
  abs_zero_lt : ∀ j, |c.zero j x| < options.tolerance
  nonneg : ∀ i, 0 ≤ forAtMostZero i
  stationary :
    (c.lagrangianGradient f options forAtMostZero forZero x).norm < options.tolerance

variable [ExactScalar α] {f : Vec α n → α} {c : Constraints α n p q} {options : Options α}
  {x : Vec α n}

theorem excess_eq (v : α) :
  excess v = max v 0
  := maxNum_eq v 0

theorem violation_le_iff (b : α) :
  c.violation x ≤ b ↔ (0 ≤ b ∧ ∀ i, c.atMostZero i x ≤ b) ∧ ∀ j, |c.zero j x| ≤ b
  := by
  simp only [violation, maxNum_eq, abs_eq, excess_eq, foldl_max_le_iff, max_le_iff]
  constructor
  · rintro ⟨⟨hb, hi⟩, hj⟩
    exact ⟨⟨hb, fun i => (hi i).1⟩, hj⟩
  · rintro ⟨⟨hb, hi⟩, hj⟩
    exact ⟨⟨hb, fun i => ⟨hi i, hb⟩⟩, hj⟩

/-- The certificate of a feasible point at which a gradient of the Lagrangian is short. -/
theorem certificate_of_violation_lt {forAtMostZero : Vec α p} {forZero : Vec α q}
    (hfeasible : c.violation x < options.tolerance) (hnonneg : ∀ i, 0 ≤ forAtMostZero i)
    (hshort : (c.lagrangianGradient f options forAtMostZero forZero x).norm < options.tolerance) :
  Certificate f c options x forAtMostZero forZero
  := by
  obtain ⟨⟨-, hi⟩, hj⟩ := (violation_le_iff (c.violation x)).mp le_rfl
  constructor
  · intro i
    exact (hi i).trans_lt hfeasible
  · intro j
    exact (hj j).trans_lt hfeasible
  · exact hnonneg
  · exact hshort

/-- A multiple of `w` that is added only where `v` is positive. -/
theorem ite_add_mul {v t t' : α} (u w : Vec α n) (hpos : 0 < v → t = t') (hzero : v ≤ 0 → t' = 0) :
  (if v > 0 then u + w * t else u) = u + w * t'
  := by
  split
  case isTrue h => rw [hpos h]
  case isFalse h =>
    ext k
    rw [hzero (not_lt.mp h), Vec.get_add, Vec.get_mul, mul_zero, add_zero]

end Constraints

/-! ### Rounds -/

/-- A run of rounds that ends at a minimum ends with one of its rounds. -/
theorem rounds_converged {σ : Type} {step : Nat → σ → Run α (Round σ (Minimum α n))} {s₀ : σ}
    (point : σ → Vec α n) {f : Vec α n → α} {options : Options α} {r : Minimum α n}
    (hr : r.converged = true)
    (h : (iterate step (fun s => endInfeasible f (point s) options)
      options.penaltyRounds 0 s₀).outcome = .ok r) :
  ∃ k s, Reached (fun k s => (step k s).outcome) s₀ k s ∧ (step k s).outcome = .ok (.done r)
  := by
  obtain ⟨k, s, hs, ⟨-, hlast⟩ | ⟨-, hlast⟩⟩ := Run.exists_reached h
  · exact ⟨k, s, hs, hlast⟩
  · cases hlast
    cases hr

section

variable [RealScalar α] {f : Vec α n → α} {c : Constraints α n p q} {options : Options α}

/-- A round of either penalty minimizes the penalized objective, and then ends with the minimum or
goes on. -/
theorem round_eq_ok {σ : Type} {inner : Run α (Minimum α n)} {event : Minimum α n → Event α}
    {next : Minimum α n → σ} {round : Nat} {r : Round σ (Minimum α n)}
    (h : (do
      let m ← inner
      Run.announce (event m)
      if c.violation m.x < options.tolerance then
        return .done (← endFeasible f m.x (round + 1) m.converged)
      else
        return .next (next m) : Run α (Round σ (Minimum α n))).outcome = .ok r) :
  ∃ m, inner.outcome = .ok m
    ∧ (c.violation m.x < options.tolerance ∧ r = .done ⟨m.x, f m.x, round + 1, m.converged⟩
      ∨ r = .next (next m))
  := by
  obtain ⟨m, hm, h⟩ := Run.outcome_bind_eq_ok.mp h
  obtain ⟨-, -, h⟩ := Run.outcome_bind_eq_ok.mp h
  use m, hm
  split at h
  case isTrue hfeasible =>
    left
    cases h
    exact ⟨hfeasible, rfl⟩
  case isFalse =>
    right
    cases h
    rfl

/-- The minimization of a penalized objective that ends at a minimum ends where the penalized
gradient is short. -/
theorem minimizeWith_converged {grad : Vec α n → Vec α n} {x₀ : Vec α n} {m : Minimum α n}
    (hdescent : options.descent = .conjugateGradient)
    (h : (minimizeWith f grad x₀ options).outcome = .ok m) (hm : m.converged = true) :
  (grad m.x).norm < options.tolerance
  := by
  rw [minimizeWith, hdescent] at h
  exact ConjugateGradient.minimum_converged h hm

end

open Constraints

section

variable [ExactScalar α] {f : Vec α n → α} {c : Constraints α n p q} {options : Options α}

/-! ### The exterior penalty -/

namespace Exterior

variable {s s' : State α n} {x₀ : Vec α n} {k : Nat} {weight : α}

/-- The multipliers of the inequalities for a weight of the violation at `x`. -/
def forAtMostZero (c : Constraints α n p q) (weight : α) (x : Vec α n) : Vec α p :=
  Vec.ofFn fun i => nat 2 * weight * excess (c.atMostZero i x)

/-- The multipliers of the equations for a weight of the violation at `x`. -/
def forZero (c : Constraints α n p q) (weight : α) (x : Vec α n) : Vec α q :=
  Vec.ofFn fun j => nat 2 * weight * c.zero j x

theorem forAtMostZero_nonneg (c : Constraints α n p q) (hweight : 0 ≤ weight) (x : Vec α n)
    (i : Fin p) :
  0 ≤ forAtMostZero c weight x i
  := by
  have hnat : (0 : α) ≤ nat 2 := by
    rw [nat_eq]
    apply Nat.cast_nonneg
  rw [forAtMostZero, Vec.get_ofFn, excess_eq]
  apply mul_nonneg (mul_nonneg hnat hweight) (le_max_right _ _)

theorem forAtMostZero_of_nonpos (weight : α) (x : Vec α n) {i : Fin p}
    (h : c.atMostZero i x ≤ 0) :
  forAtMostZero c weight x i = 0
  := by
  rw [forAtMostZero, Vec.get_ofFn, excess_eq, max_eq_right h, mul_zero]

/-- The penalized gradient is a gradient of the Lagrangian. -/
theorem slope_eq (f : Vec α n → α) (c : Constraints α n p q) (weight : α) (options : Options α)
    (x : Vec α n) :
  slope f c weight options x
    = c.lagrangianGradient f options (forAtMostZero c weight x) (forZero c weight x) x
  := by
  have hterm : ∀ (u : Vec α n) (i : Fin p),
      (if c.atMostZero i x > 0 then
          u + gradient (c.atMostZero i) x options * (nat 2 * weight * c.atMostZero i x)
        else u)
        = u + gradient (c.atMostZero i) x options * forAtMostZero c weight x i := by
    intro u i
    rw [forAtMostZero, Vec.get_ofFn, excess_eq]
    apply ite_add_mul
    · intro hpos
      rw [max_eq_left hpos.le]
    · intro hle
      rw [max_eq_right hle, mul_zero]
  ext k
  simp only [slope, hterm, Vec.get_foldl_add, lagrangianGradient, Vec.get_ofFn, Vec.get_mul,
    forZero]
  ring

theorem reached_weight_nonneg (hweight : 0 ≤ options.exteriorWeight)
    (hgrowth : 0 ≤ options.weightGrowth)
    (h : Reached (fun k s => (step f c options k s).outcome) ⟨x₀, options.exteriorWeight⟩ k s) :
  0 ≤ s.weight
  := by
  induction h with
  | start => exact hweight
  | next _ hstep ih =>
    obtain ⟨m, -, ⟨-, hs⟩ | hs⟩ := round_eq_ok hstep
    · cases hs
    · cases hs
      exact mul_nonneg ih hgrowth

/-- A minimization that starts feasible, where the first penalized gradient is short, ends there. -/
theorem minimum_of_norm_lt (hdescent : options.descent = .conjugateGradient)
    (hrounds : options.penaltyRounds ≠ 0) (hiterations : options.iterations ≠ 0)
    (hfeasible : c.violation x₀ < options.tolerance)
    (hshort : (slope f c options.exteriorWeight options x₀).norm < options.tolerance) :
  (minimum f c x₀ options).outcome = .ok ⟨x₀, f x₀, 1, true⟩
  := by
  obtain ⟨budget, hbudget⟩ := Nat.exists_eq_succ_of_ne_zero hrounds
  have hinner : minimizeWith (objective f c options.exteriorWeight)
      (slope f c options.exteriorWeight options) x₀ options
        = .result ⟨x₀, objective f c options.exteriorWeight x₀, 0, true⟩ := by
    rw [minimizeWith, hdescent]
    apply ConjugateGradient.minimum_of_norm_lt _ hiterations hshort
  have hstep : (step f c options 0 ⟨x₀, options.exteriorWeight⟩).outcome
      = .ok (.done ⟨x₀, f x₀, 1, true⟩) := by
    rw [step, hinner, Run.bind_of_ok rfl]
    dsimp only
    rw [Run.bind_of_ok rfl, if_pos hfeasible]
    rfl
  rw [minimum, hbudget, iterate_succ, Run.outcome_bind, hstep]
  rfl

end Exterior

/-! ### The augmented Lagrangian -/

namespace Lagrangian

variable {x₀ : Vec α n}

/-- The state before the first round. -/
def start (options : Options α) (x₀ : Vec α n) : State α n p q where
  x := x₀
  weight := options.lagrangianWeight
  forZero := 0
  forAtMostZero := 0
  violation := none

/-- The augmented gradient is the gradient of the Lagrangian for the updated multipliers. -/
theorem slope_eq (f : Vec α n → α) (c : Constraints α n p q) (options : Options α)
    (s : State α n p q) (x : Vec α n) :
  slope f c options s x
    = c.lagrangianGradient f options (update c s x).forAtMostZero (update c s x).forZero x
  := by
  have hterm : ∀ (u : Vec α n) (i : Fin p),
      (if shifted (s.forAtMostZero i) s.weight (c.atMostZero i x) > 0 then
          u + gradient (c.atMostZero i) x options
            * shifted (s.forAtMostZero i) s.weight (c.atMostZero i x)
        else u)
        = u + gradient (c.atMostZero i) x options * (update c s x).forAtMostZero i := by
    intro u i
    rw [update, Vec.get_ofFn]
    apply ite_add_mul
    · intro _
      rfl
    · intro hle
      apply le_antisymm hle
      rw [shifted, excess_eq]
      apply le_max_right
  ext k
  simp only [slope, hterm, Vec.get_foldl_add, lagrangianGradient, Vec.get_ofFn, Vec.get_mul,
    update]

theorem update_nonneg (c : Constraints α n p q) (s : State α n p q) (x : Vec α n) (i : Fin p) :
  0 ≤ (update c s x).forAtMostZero i
  := by
  rw [update, Vec.get_ofFn, shifted, excess_eq]
  apply le_max_right

end Lagrangian

end

/-! ### The certificate -/

/-- With exact scalars and roots, conjugate gradients, at least one constraint, and a first weight
and a growth that are not negative: a constrained minimization that ends at a minimum leaves a
certificate of it. For the exterior penalty the multipliers of the inequalities that hold are zero;
for the augmented Lagrangian the multipliers are those that the last round leaves behind. -/
theorem minimizeUnder_certificate [ExactReal α] (f : Vec α n → α) (c : Constraints α n p q)
    (x₀ : Vec α n) (options : Options α) (r : Minimum α n) (hconstrained : 0 < p + q)
    (hdescent : options.descent = .conjugateGradient) (hweight : 0 ≤ options.exteriorWeight)
    (hgrowth : 0 ≤ options.weightGrowth) (h : (minimizeUnder f c x₀ options).outcome = .ok r)
    (hr : r.converged = true) :
  ∃ forAtMostZero forZero, Certificate f c options r.x forAtMostZero forZero
    ∧ (options.penalty = .exterior → ∀ i, c.atMostZero i r.x ≤ 0 → forAtMostZero i = 0)
    ∧ (options.penalty = .lagrangian →
        ∃ k s, Reached (fun k s => (Lagrangian.step f c options k s).outcome)
            (Lagrangian.start options x₀) k s
          ∧ (Lagrangian.step f c options k s).outcome = .ok (.done r)
          ∧ forAtMostZero = (Lagrangian.update c s r.x).forAtMostZero
          ∧ forZero = (Lagrangian.update c s r.x).forZero)
  := by
  have hsome : ¬ (p = 0 ∧ q = 0) := by omega
  rw [minimizeUnder, if_neg hsome] at h
  cases hpenalty : options.penalty with
  | exterior =>
    simp only [hpenalty] at h
    obtain ⟨k, s, hreached, hstep⟩ := rounds_converged Exterior.State.x hr h
    obtain ⟨m, hm, ⟨hfeasible, hs⟩ | hs⟩ := round_eq_ok hstep
    · cases hs
      have hshort := minimizeWith_converged hdescent hm hr
      rw [Exterior.slope_eq] at hshort
      refine ⟨_, _, certificate_of_violation_lt hfeasible ?_ hshort, ?_, ?_⟩
      · apply Exterior.forAtMostZero_nonneg
        apply Exterior.reached_weight_nonneg hweight hgrowth hreached
      · intro _ i hi
        apply Exterior.forAtMostZero_of_nonpos _ _ hi
      · rintro ⟨⟩
    · cases hs
  | lagrangian =>
    simp only [hpenalty] at h
    obtain ⟨k, s, hreached, hstep⟩ := rounds_converged Lagrangian.State.x hr h
    obtain ⟨m, hm, ⟨hfeasible, hs⟩ | hs⟩ := round_eq_ok hstep
    · cases hs
      have hshort := minimizeWith_converged hdescent hm hr
      rw [Lagrangian.slope_eq] at hshort
      refine ⟨_, _, certificate_of_violation_lt hfeasible ?_ hshort, ?_, ?_⟩
      · apply Lagrangian.update_nonneg
      · rintro ⟨⟩
      · intro _
        exact ⟨k, s, hreached, hstep, rfl, rfl⟩
    · cases hs

/-- The square of a number that is at least one, minimized from where the first penalty is
stationary. -/
theorem minimizeUnder_certificate_square :
  let f : Vec ℝ 1 → ℝ := fun x => x 0 * x 0
  let c : Constraints ℝ 1 1 0 := ⟨Vec.ofFn fun _ x => 1 - x 0, 0⟩
  let options : Options ℝ := .standard (1 / 100)
  ∃ r, (minimizeUnder f c (Vec.fill (1000 / 1001)) options).outcome = .ok r
    ∧ r.converged = true
    ∧ ∃ forAtMostZero forZero, Certificate f c options r.x forAtMostZero forZero
  := by
  intro f c options
  have hweight : options.exteriorWeight = 1000 := nat_eq 1000
  have hgrowth : options.weightGrowth = 10 := nat_eq 10
  have hspacing : options.spacing = 1 / 100 := by
    show (ratio 1 100 : ℝ) = _
    rw [ratio_eq]
    norm_num
  have hfeasible : c.violation (Vec.fill (1000 / 1001)) < options.tolerance := by
    show _ < (1 / 100 : ℝ)
    simp only [violation, excess_eq, maxNum_eq, Fin.foldl_succ, Fin.foldl_zero, c, Vec.get_ofFn,
      Vec.get_fill]
    norm_num
  have hslope : Exterior.slope f c options.exteriorWeight options (Vec.fill (1000 / 1001)) = 0 := by
    have hgradient : ∀ (g : Vec ℝ 1 → ℝ) (x : Vec ℝ 1),
        gradient g x options 0 = partialQuotient g x 0 (1 / 100) := by
      intro g x
      rw [← hspacing]
      exact Vec.get_ofFn _ 0
    have hf : gradient f (Vec.fill (1000 / 1001)) options 0 = 2000 / 1001 := by
      rw [hgradient, partialQuotient]
      simp only [f, Vec.ahead, Vec.behind, Vec.get_set, Vec.get_fill, if_true]
      norm_num
    have hc : gradient (c.atMostZero 0) (Vec.fill (1000 / 1001)) options 0 = -1 := by
      rw [hgradient, partialQuotient]
      simp only [c, Vec.ahead, Vec.behind, Vec.get_ofFn, Vec.get_set, Vec.get_fill, if_true]
      norm_num
    rw [Exterior.slope_eq]
    ext k
    obtain rfl := Subsingleton.elim 0 k
    simp only [lagrangianGradient, Vec.get_ofFn, hf, hc, Exterior.forAtMostZero, excess_eq,
      Fin.sum_univ_zero, Fin.sum_univ_one, hweight]
    simp only [c, Vec.get_ofFn, Vec.get_fill, Vec.get_zero]
    norm_num
  have hshort : (Exterior.slope f c options.exteriorWeight options
      (Vec.fill (1000 / 1001))).norm < options.tolerance := by
    rw [hslope]
    show Real.sqrt _ < (1 / 100 : ℝ)
    rw [Vec.normSquared, Vec.dot, foldl_add]
    simp
  have hok : (minimizeUnder f c (Vec.fill (1000 / 1001)) options).outcome
      = .ok ⟨Vec.fill (1000 / 1001), f (Vec.fill (1000 / 1001)), 1, true⟩ :=
    Exterior.minimum_of_norm_lt rfl (by decide) (by decide) hfeasible hshort
  obtain ⟨forAtMostZero, forZero, hcertificate, -⟩ := minimizeUnder_certificate f c _ options _
    one_pos rfl (by rw [hweight]; norm_num) (by rw [hgrowth]; norm_num) hok rfl
  exact ⟨_, hok, rfl, forAtMostZero, forZero, hcertificate⟩

end Numerics
