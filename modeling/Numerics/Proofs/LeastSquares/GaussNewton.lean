import Mathlib.Tactic.Linarith
import Numerics.LeastSquares.Fit
import Numerics.Proofs.LeastSquares.NormalEquations
import Numerics.Proofs.Search.Ray

/-!
# Linearisation of linear problems

If the residuals are affine, then the normal equations are exact at every point, and their solution
leads to the point of least cost, the one `Target` of all iterations. Along this ray the cost is a
parabola with its minimum at one. So every iteration takes the error to a multiple of itself, by no
more than `0.146`, which is how far the line search may miss the minimum.

A fit ends with a short step, or when its budget is spent. As a step is most of the error before it,
the error after a short step is short as well. As a step is not much longer than the error before
it, there is a short one as soon as the error is small.
-/

namespace Numerics.GaussNewton

/-- In any arithmetic, an iteration solves the equations, searches along their solution, and then
ends the fit or goes on from where the search ended. -/
theorem step_eq_ok {α : Type} [RealScalar α] {n m : Nat} {γ : Type} [ChoiceSource γ]
    {r : Residuals α n m} {w : Vec α m} {options : Options α} {k : Nat} {s : State γ α n m}
    {t : Round (State γ α n m) (FitResult α n)} (h : (step r w options k s).outcome = .ok t) :
  ∃ d line, (equations r w options s.x s.rows.next).solve = .ok d
    ∧ (minimizeRay (fun t => r.cost w (s.x + d * t)) options).outcome = .ok line
    ∧ (t = .done ⟨s.x + d * line.x, line.value, k + 1, true⟩
      ∨ t = .next ⟨s.x + d * line.x, line.value, s.rows.next⟩)
  := by
  obtain ⟨d, hd, h⟩ := Run.outcome_bind_eq_ok.mp h
  obtain ⟨line, hline, h⟩ := Run.outcome_bind_eq_ok.mp h
  refine ⟨d, line, hd, hline, ?_⟩
  dsimp only at h
  split at h
  case isTrue =>
    left
    cases h
    rfl
  case isFalse =>
    right
    cases h
    rfl

variable {α : Type} [ExactReal α] {n m : Nat} {r : Residuals α n m} {a : Mat α m n} {x x' : Vec α n}
  {options : Options α}

/-! ### The point of least cost -/

/-- The residuals are affine with the matrix `a`, whose normal equations lead to the point `x'` from
everywhere, and only there do they hold. -/
structure Target (r : Residuals α n m) (a : Mat α m n) (x' : Vec α n) : Prop where
  affine : IsAffine r.eval a
  solve : ∀ x, NormalEquations.solve ⟨a.transpose * a, -(a.transpose.mulVec (r.eval x))⟩
    = .ok (x' - x)
  normal : a.transpose.mulVec (r.eval x') = 0
  injective : ∀ d, a.mulVec d = 0 → d = 0

/-- Normal equations that are accepted have a target. -/
theorem exists_target (hr : IsAffine r.eval a) {b d : Vec α n}
    (h : NormalEquations.solve ⟨a.transpose * a, b⟩ = .ok d) :
  ∃ x', Target r a x'
  := by
  have hsymm : (a.transpose * a).transpose = a.transpose * a := by
    rw [Mat.transpose_mul, Mat.transpose_transpose]
  obtain ⟨f, hsolve, hf⟩ := NormalEquations.exists_solution hsymm h
  have hunique := Mat.mulVec_eq_iff hf
  have hmove : ∀ x d, a.transpose.mulVec (r.eval (x + d))
      = a.transpose.mulVec (r.eval x) + (a.transpose * a).mulVec d := by
    intro x d
    rw [hr, isAffine_mulVec, Mat.mul_mulVec]
  have hnormal : a.transpose.mulVec (r.eval (0 + f (-(a.transpose.mulVec (r.eval 0))))) = 0 := by
    rw [hmove, hf]
    ext i
    simp
  use 0 + f (-(a.transpose.mulVec (r.eval 0)))
  generalize 0 + f (-(a.transpose.mulVec (r.eval 0))) = x' at *
  constructor
  · exact hr
  · intro x
    have hx : (a.transpose * a).mulVec (x' - x) = -(a.transpose.mulVec (r.eval x)) := by
      have hx' := hmove x (x' - x)
      rw [Vec.add_sub_cancel, hnormal] at hx'
      exact Vec.eq_neg_of_add_eq_zero hx'.symm
    rw [hsolve, ← (hunique _ _).mp hx]
  · exact hnormal
  · intro d hd
    have hzero : (a.transpose * a).mulVec d = (a.transpose * a).mulVec 0 := by
      rw [Mat.mul_mulVec, hd, Mat.mulVec_zero, Mat.mulVec_zero]
    rw [(hunique _ _).mp hzero, ← (hunique _ _).mp rfl]

namespace Target

/-- The target is the only point of least cost. -/
theorem cost_lt (h : Target r a x') (hx : x ≠ x') :
  r.cost (Vec.fill 1) x' < r.cost (Vec.fill 1) x
  := by
  obtain ⟨d, hd, rfl⟩ := Vec.exists_eq_add_of_ne hx
  rw [Residuals.cost_add h.affine h.normal]
  apply lt_add_of_pos_right
  apply Vec.dot_self_pos
  intro hzero
  exact hd (h.injective d hzero)

/-- Along the way to the target the cost is a parabola. -/
theorem cost_ray (h : Target r a x') (x : Vec α n) :
  (fun t => r.cost (Vec.fill 1) (x + (x' - x) * t))
    = bowl (r.cost (Vec.fill 1) x') ((a.mulVec (x - x')).dot (a.mulVec (x - x')))
  := by
  funext t
  have hpoint : x + (x' - x) * t = x' + (x - x') * (1 - t) := by
    ext i
    simp
    ring
  rw [hpoint, Residuals.cost_add h.affine h.normal, bowl, Mat.mulVec_mul, Vec.dot_mul, Vec.dot_comm,
    Vec.dot_mul, mul_assoc]

end Target

/-! ### Errors -/

theorem error_eq (x x' : Vec α n) (t : α) :
  x + (x' - x) * t - x' = (x - x') * (1 - t)
  := by
  ext i
  simp
  ring

theorem norm_error_le {t : α} (ht : |1 - t| ≤ 146 / 1000) :
  (x + (x' - x) * t - x').norm ≤ 146 / 1000 * (x - x').norm
  := by
  rw [error_eq, Vec.norm_mul, mul_comm]
  exact mul_le_mul_of_nonneg_right ht (Vec.norm_nonneg _)

/-- The errors of a run shrink by a further factor. -/
theorem norm_error_le_pow {x₀ : Vec α n} {k : Nat} {t : α} (ht : |1 - t| ≤ 146 / 1000)
    (hle : (x - x').norm ≤ (146 / 1000) ^ k * (x₀ - x').norm) :
  (x + (x' - x) * t - x').norm ≤ (146 / 1000) ^ (k + 1) * (x₀ - x').norm
  := by
  rw [pow_succ', mul_assoc]
  apply (norm_error_le ht).trans
  exact mul_le_mul_of_nonneg_left hle (by norm_num)

/-- A step is not much longer than the error before it. -/
theorem norm_step_le {t : α} (ht : |1 - t| ≤ 146 / 1000) :
  ((x' - x) * t).norm ≤ 1146 / 1000 * (x - x').norm
  := by
  have htake : |t| ≤ 1146 / 1000 := by
    obtain ⟨hlower, hupper⟩ := abs_le.mp ht
    rw [abs_le]
    constructor <;> linarith
  rw [Vec.norm_mul, Vec.norm_sub_comm, mul_comm]
  exact mul_le_mul_of_nonneg_right htake (Vec.norm_nonneg _)

/-- The error after a short step is short. -/
theorem norm_error_of_short {t : α} (ht : |1 - t| ≤ 146 / 1000)
    (hshort : ((x' - x) * t).norm < options.tolerance) :
  (x + (x' - x) * t - x').norm ≤ 18 / 100 * options.tolerance
  := by
  have hnonneg := Vec.norm_nonneg (x - x')
  have htake : 854 / 1000 ≤ |t| := by
    have hle := (abs_le.mp ht).2
    apply le_trans _ (le_abs_self t)
    linarith
  have hbefore : (x - x').norm * (854 / 1000) < options.tolerance := by
    rw [Vec.norm_mul, Vec.norm_sub_comm] at hshort
    exact (mul_le_mul_of_nonneg_left htake hnonneg).trans_lt hshort
  have hafter : (x + (x' - x) * t - x').norm ≤ 146 / 1000 * (x - x').norm := norm_error_le ht
  linarith

/-! ### One iteration -/

section

variable {γ : Type}

/-- The point that an iteration leads to. -/
def pointOf : Round (State γ α n m) (FitResult α n) → Vec α n
  | .next s => s.x
  | .done result => result.x

/-- What an iteration that uses all residuals leads to, if it takes the step `d` from `x` to a point
with the cost `v`. -/
def landed (options : Options α) (k : Nat) (x d : Vec α n) (v : α) :
    Round (State γ α n m) (FitResult α n) :=
  if d.norm < options.tolerance then
    .done ⟨x + d, v, k + 1, true⟩
  else
    .next ⟨x + d, v, .all⟩

theorem landed_eq_next {k : Nat} {d : Vec α n} {v : α} {s : State γ α n m}
    (h : landed options k x d v = .next s) :
  options.tolerance ≤ d.norm ∧ s.x = x + d ∧ s.rows = .all
  := by
  rw [landed] at h
  split at h
  case isTrue => cases h
  case isFalse hlong =>
    cases h
    exact ⟨le_of_not_gt hlong, rfl, rfl⟩

theorem landed_eq_done {k : Nat} {d : Vec α n} {v : α} {result : FitResult α n}
    (h : landed options k x d v = (.done result : Round (State γ α n m) (FitResult α n))) :
  d.norm < options.tolerance ∧ result = ⟨x + d, v, k + 1, true⟩
  := by
  rw [landed] at h
  split at h
  case isTrue hshort =>
    cases h
    exact ⟨hshort, rfl⟩
  case isFalse => cases h

theorem pointOf_landed (options : Options α) (k : Nat) (x d : Vec α n) (v : α) :
  pointOf (landed options k x d v : Round (State γ α n m) (FitResult α n)) = x + d
  := by
  rw [landed]
  split <;> rfl

variable [ChoiceSource γ] (h : Target r a x') (hspacing : options.spacing ≠ 0)
  (htol : 0 ≤ options.tolerance)

include h hspacing htol

/-- An iteration steps towards the target, and misses it by no more than `0.146` of the way. Where
it starts from the target, it stays there whatever the line search finds. -/
theorem Target.outcome_step (k : Nat) {s : State γ α n m} (hs : s.rows = .all) :
  ∃ t v : α, |1 - t| ≤ 146 / 1000
    ∧ (step r (Vec.fill 1) options k s).outcome = .ok (landed options k s.x ((x' - s.x) * t) v)
  := by
  have hsolve : (equations r (Vec.fill 1) options s.x s.rows.next).solve = .ok (x' - s.x) := by
    rw [hs]
    show (NormalEquations.ofAll r s.x (Vec.fill 1) options).solve = _
    rw [NormalEquations.ofAll_affine h.affine s.x hspacing, h.solve]
  obtain ⟨line, hline, hnear⟩ := minimizeRay_bowl (r.cost (Vec.fill 1) x')
    (Vec.dot_self_nonneg (a.mulVec (s.x - x'))) htol
  rw [← h.cost_ray] at hline
  have hstep : (step r (Vec.fill 1) options k s).outcome
      = .ok (landed options k s.x ((x' - s.x) * line.x) line.value) := by
    simp only [step, hsolve]
    refine Run.outcome_bind_eq_ok.mpr ⟨_, rfl, Run.outcome_bind_eq_ok.mpr ⟨line, hline, ?_⟩⟩
    rw [apply_ite Run.outcome, landed, apply_ite Except.ok, hs]
    rfl
  by_cases hzero : (a.mulVec (s.x - x')).dot (a.mulVec (s.x - x')) = 0
  · have hx : s.x - x' = 0 := by
      apply h.injective
      by_contra hne
      exact (Vec.dot_self_pos hne).ne' hzero
    have hstay : (x' - s.x) * line.x = (x' - s.x) * (1 : α) := by
      ext i
      have hi := congrArg (fun v : Vec α n => v i) hx
      simp only [Vec.get_sub, Vec.get_zero, sub_eq_zero] at hi
      simp [hi]
    refine ⟨1, line.value, ?_, ?_⟩
    · norm_num
    · rw [← hstay]
      exact hstep
  · exact ⟨line.x, line.value, hnear hzero, hstep⟩

/-! ### The whole fit -/

/-- The fit from `x₀` that uses all residuals comes to the state `s` after `k` iterations. -/
def Visited (r : Residuals α n m) (x₀ : Vec α n) (options : Options α) (k : Nat)
    (s : State γ α n m) : Prop :=
  Reached (fun k s => (step r (Vec.fill 1) options k s).outcome)
    ⟨x₀, r.cost (Vec.fill 1) x₀, .all⟩ k s

/-- A fit that uses all residuals may end in two ways from the state `s` after `k` iterations. -/
inductive Exit (r : Residuals α n m) (options : Options α) (k : Nat) (s : State γ α n m) :
    FitResult α n → Prop where
  /-- A further iteration takes a short step. -/
  | short {d : Vec α n} {v : α} (hk : k < options.iterations) (hshort : d.norm < options.tolerance)
      (hstep : (step r (Vec.fill 1) options k s).outcome
        = .ok (.done ⟨s.x + d, v, k + 1, true⟩)) :
      Exit r options k s ⟨s.x + d, v, k + 1, true⟩
  /-- The budget is spent. -/
  | spent (hk : k = options.iterations) : Exit r options k s ⟨s.x, s.cost, k, false⟩

variable {x₀ : Vec α n} {k : Nat} {s : State γ α n m}

/-- All states use all residuals, and their errors shrink. -/
theorem Visited.error_le (hs : Visited r x₀ options k s) :
  s.rows = .all ∧ (s.x - x').norm ≤ (146 / 1000) ^ k * (x₀ - x').norm
  := by
  induction hs with
  | start =>
    use rfl
    rw [pow_zero, one_mul]
  | @next k s s' _ hstep ih =>
    obtain ⟨hrows, hle⟩ := ih
    obtain ⟨t, v, ht, houtcome⟩ := h.outcome_step hspacing htol k hrows
    rw [houtcome] at hstep
    obtain ⟨-, hx, hrows'⟩ := landed_eq_next (Except.ok.inj hstep)
    use hrows'
    rw [hx]
    exact norm_error_le_pow ht hle

/-- All iterations step towards the target. -/
theorem Visited.outcome_step (hs : Visited r x₀ options k s) :
  ∃ t v : α, |1 - t| ≤ 146 / 1000
    ∧ (step r (Vec.fill 1) options k s).outcome = .ok (landed options k s.x ((x' - s.x) * t) v)
  := by
  obtain ⟨hrows, -⟩ := hs.error_le h hspacing htol
  exact h.outcome_step hspacing htol k hrows

/-- None of the steps that led to a state was short. -/
theorem Visited.tolerance_le (hs : Visited r x₀ options k s) {i : Nat} (hi : i < k) :
  options.tolerance ≤ 1146 / 1000 * ((146 / 1000) ^ i * (x₀ - x').norm)
  := by
  induction hs with
  | start => cases hi
  | @next k s s' hs hstep ih =>
    obtain hearlier | rfl := Nat.lt_succ_iff_lt_or_eq.mp hi
    · exact ih hearlier
    · obtain ⟨-, hle⟩ := Visited.error_le h hspacing htol hs
      obtain ⟨t, v, ht, houtcome⟩ := Visited.outcome_step h hspacing htol hs
      rw [houtcome] at hstep
      obtain ⟨hlong, -, -⟩ := landed_eq_next (Except.ok.inj hstep)
      apply hlong.trans
      apply (norm_step_le ht).trans
      exact mul_le_mul_of_nonneg_left hle (by norm_num)

/-- A fit that uses all residuals has a result, from the last of its states. -/
theorem Target.exists_exit (x₀ : Vec α n) :
  ∃ result, (fit r (Vec.fill 1) x₀ (.all : Rows γ m) options).outcome = .ok result
    ∧ ∃ k, ∃ s : State γ α n m, Visited r x₀ options k s ∧ Exit r options k s result
  := by
  have hend := iterate_ended (fun k s => (step r (Vec.fill 1) options k s).outcome)
    (fun s => .ok ⟨s.x, s.cost, options.iterations, false⟩)
    (⟨x₀, r.cost (Vec.fill 1) x₀, .all⟩ : State γ α n m) options.iterations
  rw [fit, Run.outcome_iterate]
  simp only [Run.outcome_pure]
  generalize iterate (m := Except SolverError) _ _ options.iterations 0 _ = outcome at hend ⊢
  cases hend with
  | @done k s result hk hs hstep =>
    obtain ⟨t, v, -, houtcome⟩ := Visited.outcome_step h hspacing htol hs
    obtain ⟨hshort, rfl⟩ := landed_eq_done (Except.ok.inj (houtcome.symm.trans hstep))
    exact ⟨_, rfl, k, s, hs, .short hk hshort hstep⟩
  | @error k s e _ hs hstep =>
    obtain ⟨t, v, -, houtcome⟩ := Visited.outcome_step h hspacing htol hs
    rw [houtcome] at hstep
    cases hstep
  | @exhausted s _ hs hlast => exact ⟨_, hlast.symm, _, s, hs, .spent rfl⟩

namespace Exit

variable {result : FitResult α n}

/-- A result is as close to the target as its iterations make it, and closer than the tolerance if
the fit converged. -/
theorem error_le (hexit : Exit r options k s result) (hs : Visited r x₀ options k s) :
  (result.x - x').norm ≤ (146 / 1000) ^ result.iterations * (x₀ - x').norm
    ∧ (result.converged = true → (result.x - x').norm ≤ 18 / 100 * options.tolerance)
  := by
  obtain ⟨-, hle⟩ := hs.error_le h hspacing htol
  cases hexit with
  | short _ _ hstep =>
    obtain ⟨t, v, ht, houtcome⟩ := hs.outcome_step h hspacing htol
    obtain ⟨hshort, hresult⟩ := landed_eq_done (Except.ok.inj (houtcome.symm.trans hstep))
    rw [hresult]
    exact ⟨norm_error_le_pow ht hle, fun _ => norm_error_of_short ht hshort⟩
  | spent =>
    use hle
    intro hconverged
    cases hconverged

/-- A fit converges as soon as a step from within the bound of the error must be short. -/
theorem converged (hexit : Exit r options k s result) (hs : Visited r x₀ options k s) {i : Nat}
    (hi : i < options.iterations)
    (hsmall : 1146 / 1000 * ((146 / 1000) ^ i * (x₀ - x').norm) < options.tolerance) :
  result.converged = true ∧ result.iterations ≤ i + 1
  := by
  have hle : k ≤ i := by
    apply Nat.le_of_not_lt
    intro hlater
    exact hsmall.not_ge (hs.tolerance_le h hspacing htol hlater)
  cases hexit with
  | short => exact ⟨rfl, Nat.succ_le_succ hle⟩
  | spent hk => omega

end Exit

end

/-- Let the residuals be affine, let the step of differences be other than zero and the tolerance
positive, and let the normal equations be accepted with some right side. Then there is one point of
least cost. A fit by linearisation has a result, from wherever it starts and however its Jacobians
are differenced. Every iteration succeeds and takes the error to a multiple of itself, by no more
than `0.146`, so the error after `k` of them is at most `0.146 ^ k` times the first.

The result is that of the first iteration with a short step, or the last state if the budget is
spent before. If the fit converges, then its error is at most `0.18` times the tolerance. It does
converge, with the iteration after `k` others at the latest, if the budget allows for that one and
`1.146 * 0.146 ^ k` times the first error is below the tolerance. -/
theorem fit_affine_contracts (r : Residuals α n m) (a : Mat α m n) (y : Vec α m)
    (hr : ∀ x, r.eval x = a.mulVec x - y) (x₀ : Vec α n) (options : Options α)
    (hfitting : options.fitting = .gaussNewton) (hspacing : options.spacing ≠ 0)
    (htol : 0 < options.tolerance)
    (haccepted : ∃ b d, NormalEquations.solve ⟨a.transpose * a, b⟩ = .ok d) :
  ∃ x', (∀ x, x ≠ x' → r.cost (Vec.fill 1) x' < r.cost (Vec.fill 1) x)
    ∧ (∀ k (s : State Random.Xoshiro α n m), Visited r x₀ options k s →
        (s.x - x').norm ≤ (146 / 1000) ^ k * (x₀ - x').norm
          ∧ ∃ round, (step r (Vec.fill 1) options k s).outcome = .ok round
            ∧ ∃ t : α, |1 - t| ≤ 146 / 1000 ∧ pointOf round - x' = (s.x - x') * (1 - t))
    ∧ ∃ result, (Numerics.fit r x₀ options).outcome = .ok result
      ∧ (∃ k, ∃ s : State Random.Xoshiro α n m,
          Visited r x₀ options k s ∧ Exit r options k s result)
      ∧ (result.x - x').norm ≤ (146 / 1000) ^ result.iterations * (x₀ - x').norm
      ∧ (result.converged = true → (result.x - x').norm ≤ 18 / 100 * options.tolerance)
      ∧ ∀ k < options.iterations,
          1146 / 1000 * ((146 / 1000) ^ k * (x₀ - x').norm) < options.tolerance →
            result.converged = true ∧ result.iterations ≤ k + 1
  := by
  obtain ⟨b, d, hsolve⟩ := haccepted
  have haffine : IsAffine r.eval a := by
    rw [funext hr]
    exact (isAffine_mulVec a).sub_const y
  obtain ⟨x', h⟩ := exists_target haffine hsolve
  refine ⟨x', fun x => h.cost_lt, ?_, ?_⟩
  · intro k s hs
    obtain ⟨-, hle⟩ := hs.error_le h hspacing htol.le
    obtain ⟨t, v, ht, houtcome⟩ := hs.outcome_step h hspacing htol.le
    refine ⟨hle, _, houtcome, t, ht, ?_⟩
    rw [pointOf_landed, error_eq]
  · obtain ⟨result, hresult, k, s, hs, hexit⟩ :=
      h.exists_exit (γ := Random.Xoshiro) hspacing htol.le x₀
    obtain ⟨hclose, hconverged⟩ := hexit.error_le h hspacing htol.le hs
    refine ⟨result, ?_, ⟨k, s, hs, hexit⟩, hclose, hconverged,
      fun i hi => hexit.converged h hspacing htol.le hs hi⟩
    rw [Numerics.fit, fitWeighted, hfitting]
    exact Run.outcome_bind_eq_ok.mpr ⟨result, hresult, rfl⟩

/-- Two samples have their mean as the point of least cost, and it is fitted to them. -/
theorem fit_affine_contracts_mean :
  let a : Mat ℝ 2 1 := Mat.ofFn ![![1], ![1]]
  let r : Residuals ℝ 1 2 := .ofFunction fun x => a.mulVec x - Vec.ofFn ![1, 3]
  (∃ b d, NormalEquations.solve ⟨a.transpose * a, b⟩ = .ok d)
    ∧ (∀ x, x ≠ Vec.fill 2 → r.cost (Vec.fill 1) (Vec.fill 2) < r.cost (Vec.fill 1) x)
    ∧ ∃ result, (Numerics.fit r 0 (.standard (1 / 1000))).outcome = .ok result
      ∧ result.converged = true
      ∧ result.iterations ≤ 6
      ∧ (result.x - Vec.fill 2).norm ≤ 18 / 100 * (1 / 1000)
  := by
  intro a r
  have hgram : a.transpose * a = Mat.ofFn ![![2]] := by
    ext i j
    fin_cases i
    fin_cases j
    simp [a, Mat.get_product, Fin.foldl_succ_last]
    norm_num
  have hfloor : Linear.Cholesky.floor (Mat.ofFn ![![2]] : Mat ℝ 1 1) < 1 := by
    have hε : (epsilon : ℝ) = 1 / 2 ^ 52 := rfl
    rw [Linear.Cholesky.floor, hε]
    norm_num [Fin.foldl_succ_last, Fin.last]
  have hpivot : 1 < Linear.Cholesky.pivot (Mat.ofFn ![![2]] : Mat ℝ 1 1) 0 ⟨0, one_pos⟩ := by
    norm_num [Linear.Cholesky.pivot, foldBelow]
  obtain ⟨c, hc⟩ : ∃ c, Linear.Cholesky.factor (Mat.ofFn ![![2]] : Mat ℝ 1 1) = .ok c :=
    ⟨⟨_⟩, Linear.Cholesky.factor_eq_ok_iff.mpr
      (Linear.Cholesky.steps_succ_eq_ok (k := 0) le_rfl rfl (hfloor.trans hpivot))⟩
  have haccepted : ∃ b d, NormalEquations.solve ⟨a.transpose * a, b⟩ = .ok d := by
    use 0, c.solve 0
    rw [hgram, NormalEquations.solve]
    simp only [hc]
  have hcost : ∀ x : Vec ℝ 1, r.cost (Vec.fill 1) x = 2 * (x 0 - 2) ^ 2 + 2 := by
    intro x
    rw [Residuals.cost_fill_one one_mul]
    simp [Vec.normSquared, Vec.dot, r, a, Residuals.ofFunction, Mat.get_mulVec,
      Fin.foldl_succ_last]
    ring
  have htol : 0 < (Options.standard (1 / 1000) : Options ℝ).tolerance := by
    show (0 : ℝ) < 1 / 1000
    norm_num
  obtain ⟨x', hleast, -, result, hresult, -, -, hclose, hends⟩ := fit_affine_contracts r a
    (Vec.ofFn ![1, 3]) (fun _ => rfl) 0 (.standard (1 / 1000)) rfl
    (Options.spacing_standard_ne_zero _) htol haccepted
  obtain rfl : Vec.fill 2 = x' := by
    by_contra hne
    have hlower := hleast _ hne
    rw [hcost, hcost, Vec.get_fill] at hlower
    nlinarith [sq_nonneg (x' 0 - 2)]
  have hfirst : (0 - Vec.fill 2 : Vec ℝ 1).norm = 2 := by
    rw [Vec.norm_single]
    simp
  obtain ⟨hconverged, hiterations⟩ := hends 5 (by decide) (by
    rw [hfirst]
    show (_ : ℝ) < 1 / 1000
    norm_num)
  exact ⟨haccepted, hleast, result, hresult, hconverged, hiterations, hclose hconverged⟩

end Numerics.GaussNewton
