import Mathlib.Tactic.LinearCombination
import Numerics.Proofs.LeastSquares.Solvability
import Numerics.Proofs.LeastSquares.Termination

/-!
# Damped fits of affine residuals

For affine residuals with the matrix `a`, in exact arithmetic and with weights of one, a step `d`
that solves the equations with the damping `c` changes the cost by
`-(|a * d| ^ 2 + 2 * c * |d| ^ 2)`. With a positive damping this is a descent, unless the step is
zero, and then the step is negligible. So the first trial of every search decides it: no trial is
rejected, and no fit is given up because there can be no more damping.
-/

namespace Numerics.LevenbergMarquardt

open NormalEquations

variable {α : Type} [ExactReal α] {n m : Nat} {r : Residuals α n m} {a : Mat α m n}
  {options : Options α} {x₀ d : Vec α n} {k : Nat} {s : State α n} {damping : α}

/-! ### Steps -/

/-- What the damped equations say about the length of their solution. -/
theorem Suggests.dot_self_add_eq (hr : IsAffine r.eval a) (hspacing : options.spacing ≠ 0)
    (h : Suggests r (Vec.fill 1) options s damping d) :
  (a.mulVec d).dot (a.mulVec d) + damping * d.dot d = -(a.mulVec d).dot (r.eval s.x)
  := by
  rw [Suggests, ofAll_affine hr s.x hspacing] at h
  have hsymm : (a.transpose * a).transpose = a.transpose * a := by
    rw [Mat.transpose_mul, Mat.transpose_transpose]
  have hsolution : (a.transpose * a + Mat.scaledIdentity damping).mulVec d
      = -(a.transpose.mulVec (r.eval s.x)) :=
    (mulVec_eq_rhs_iff (transpose_damped (e := ⟨_, _⟩) hsymm damping) h d).mpr rfl
  calc (a.mulVec d).dot (a.mulVec d) + damping * d.dot d
    _ = (a.transpose * a).form d + (Mat.scaledIdentity damping).form d := by
      rw [Mat.form, Mat.mul_mulVec, Mat.dot_transpose_mulVec, Mat.form_scaledIdentity]
    _ = d.dot (-(a.transpose.mulVec (r.eval s.x))) := by
      rw [← Mat.form_add, Mat.form, hsolution]
    _ = -(a.mulVec d).dot (r.eval s.x) := by
      rw [Vec.dot_neg, Mat.dot_transpose_mulVec]

/-- The cost after a step. -/
theorem Suggests.cost_eq (hr : IsAffine r.eval a) (hspacing : options.spacing ≠ 0)
    (h : Suggests r (Vec.fill 1) options s damping d) :
  r.cost (Vec.fill 1) (s.x + d)
    = r.cost (Vec.fill 1) s.x - ((a.mulVec d).normSquared + 2 * damping * d.normSquared)
  := by
  have hlength := h.dot_self_add_eq hr hspacing
  rw [Residuals.cost_fill_one one_mul, Residuals.cost_fill_one one_mul, hr, Vec.normSquared,
    Vec.normSquared, Vec.normSquared, Vec.normSquared, Vec.dot_self_add]
  linear_combination 2 * hlength

/-- Where the tolerance is positive, the step zero is negligible. -/
theorem negligible_zero (htolerance : 0 < options.tolerance) (s : State α n) :
  Negligible options s 0
  := by
  have hzero : (0 : Vec α n).norm = 0 := by
    rw [← mul_self_eq_zero, Vec.norm_mul_norm, Vec.dot_zero]
  rw [Negligible, hzero]
  apply mul_pos htolerance (add_pos_of_nonneg_of_pos s.x.norm_nonneg htolerance)

/-! ### Trials -/

/-- The residuals are affine with the matrix `a`, differences are taken at a step other than zero,
and the tolerance and the first damping are positive. -/
structure Regular (r : Residuals α n m) (a : Mat α m n) (options : Options α) : Prop where
  affine : IsAffine r.eval a
  spacing : options.spacing ≠ 0
  tolerance : 0 < options.tolerance
  damping : 0 < options.damping

namespace Regular

variable (h : Regular r a options)

include h

/-- A step that is not negligible lowers the cost. -/
theorem cost_lt (hdamping : 0 < damping) (hstep : Suggests r (Vec.fill 1) options s damping d)
    (hlong : ¬ Negligible options s d) :
  r.cost (Vec.fill 1) (s.x + d) < r.cost (Vec.fill 1) s.x
  := by
  have hne : d ≠ 0 := by
    rintro rfl
    exact hlong (negligible_zero h.tolerance s)
  rw [hstep.cost_eq h.affine h.spacing]
  apply sub_lt_self
  apply add_pos_of_nonneg_of_pos (a.mulVec d).dot_self_nonneg
  apply mul_pos (mul_pos two_pos hdamping) (Vec.dot_self_pos hne)

theorem damping_pos (hs : Visited r (Vec.fill 1) x₀ options k s) :
  0 < s.damping
  := (leastDamping_pos h.damping).trans_le hs.leastDamping_le

/-- In a state that a fit comes to, a step that is not negligible is accepted. -/
theorem accepted (hs : Visited r (Vec.fill 1) x₀ options k s)
    (hstep : Suggests r (Vec.fill 1) options s s.damping d) (hlong : ¬ Negligible options s d) :
  Tried r (Vec.fill 1) options s s.damping (.done (.accepted ⟨s.x + d,
    r.cost (Vec.fill 1) (s.x + d), maxNum (s.damping * options.dampingDecrease) smallestDamping⟩))
  := by
  apply Tried.accepted hstep hlong
  rw [hs.cost_eq]
  apply h.cost_lt (h.damping_pos hs) hstep hlong

/-- No trial is rejected, as the first one would lower the cost. -/
theorem rejected_eq (hs : Visited r (Vec.fill 1) x₀ options k s) {j : Nat}
    (hrejected : Rejected r (Vec.fill 1) options s j damping) :
  j = 0 ∧ damping = s.damping
  := by
  induction hrejected with
  | none => exact ⟨rfl, rfl⟩
  | more _ htried ih =>
    obtain ⟨-, rfl⟩ := ih
    cases htried with
    | rejected hstep hlong hhigher =>
      rw [hs.cost_eq] at hhigher
      exact absurd (h.cost_lt (h.damping_pos hs) hstep hlong) hhigher

/-- No search is given up because there can be no more damping. -/
theorem not_exhausted (hs : Visited r (Vec.fill 1) x₀ options k s) {j : Nat}
    (hrejected : Rejected r (Vec.fill 1) options s j damping) :
  ¬ Tried r (Vec.fill 1) options s damping (.done .exhausted)
  := by
  intro htried
  obtain ⟨-, rfl⟩ := h.rejected_eq hs hrejected
  cases htried with
  | exhausted hstep hlong hhigher =>
    rw [hs.cost_eq] at hhigher
    exact hhigher (h.cost_lt (h.damping_pos hs) hstep hlong)

/-! ### Fits -/

theorem events_step (hs : Visited r (Vec.fill 1) x₀ options k s) :
  (step r (Vec.fill 1) options k s).events = []
  := by
  rw [step]
  split
  case isTrue => rfl
  case isFalse =>
    cases hfound : findStep r (Vec.fill 1) options (.ofAll r s.x (Vec.fill 1) options) s with
    | error e => rfl
    | ok ending =>
      cases ending with
      | accepted s' => rfl
      | negligible => rfl
      | exhausted =>
        obtain ⟨j, damping, hrejected, htried⟩ := findStep_eq_ok hfound
        exact absurd htried (h.not_exhausted hs hrejected)

theorem events_fit (x₀ : Vec α n) :
  (fit r (Vec.fill 1) x₀ options).events = []
  := by
  apply Run.events_iterate_eq_nil .start
  · intro k s hs
    exact h.events_step hs
  · intro s
    rfl

theorem norm_rhs (x : Vec α n) :
  (NormalEquations.ofAll r x (Vec.fill 1) options).rhs.norm = (a.transpose.mulVec (r.eval x)).norm
  := by
  rw [ofAll_affine h.affine x h.spacing, Vec.norm_neg]

/-- A fit ends at a point with a small gradient, at a negligible step, or with its budget spent. -/
theorem ends (hs : Visited r (Vec.fill 1) x₀ options k s) {result : FitResult α n}
    (hexit : Exit r (Vec.fill 1) options k s result) :
  result.converged = true ∧ (a.transpose.mulVec (r.eval result.x)).norm < options.tolerance
    ∨ result.converged = true
      ∧ (∃ d, Suggests r (Vec.fill 1) options s s.damping d ∧ Negligible options s d)
    ∨ result.converged = false ∧ k = options.iterations
  := by
  cases hexit with
  | flat hflat =>
    rw [h.norm_rhs] at hflat
    exact .inl ⟨rfl, hflat⟩
  | negligible hrejected htried =>
    obtain ⟨-, rfl⟩ := h.rejected_eq hs hrejected
    cases htried with
    | negligible hstep hshort => exact .inr (.inl ⟨rfl, _, hstep, hshort⟩)
  | exhausted hrejected htried => exact absurd htried (h.not_exhausted hs hrejected)
  | spent hspent => exact .inr (.inr ⟨rfl, hspent⟩)

end Regular

/-- Let the residuals be affine, in exact arithmetic, let the step of differences be other than zero
and the tolerance and the first damping positive. In every state that a damped fit comes to, the
damping is positive, and a step that the damped equations suggest changes the cost by exactly
`-(|a * d| ^ 2 + 2 * c * |d| ^ 2)`, where `c` is the damping. Such a step ends the fit if it is
negligible, and is accepted at once if it is not. So no trial is rejected, and nothing is announced
about the damping. A fit with a result spent its budget, or it converged: at a negligible step, or
at a point where the gradient `a.transpose * (a * x - y)` is shorter than the tolerance, which is
what the fit looks at. -/
theorem fit_affine_accepts (r : Residuals α n m) (a : Mat α m n) (y : Vec α m)
    (hr : ∀ x, r.eval x = a.mulVec x - y) (x₀ : Vec α n) (options : Options α)
    (hspacing : options.spacing ≠ 0) (htolerance : 0 < options.tolerance)
    (hdamping : 0 < options.damping) :
  (∀ k s, Visited r (Vec.fill 1) x₀ options k s →
      0 < s.damping
        ∧ (∀ d, Suggests r (Vec.fill 1) options s s.damping d →
            r.cost (Vec.fill 1) (s.x + d)
                = s.cost - ((a.mulVec d).normSquared + 2 * s.damping * d.normSquared)
              ∧ (Negligible options s d →
                  tryStep r (Vec.fill 1) options (.ofAll r s.x (Vec.fill 1) options) s s.damping
                    = .ok (.done .negligible))
              ∧ (¬ Negligible options s d →
                  tryStep r (Vec.fill 1) options (.ofAll r s.x (Vec.fill 1) options) s s.damping
                    = .ok (.done (.accepted ⟨s.x + d, r.cost (Vec.fill 1) (s.x + d),
                        maxNum (s.damping * options.dampingDecrease) smallestDamping⟩))))
        ∧ ∀ j damping, Rejected r (Vec.fill 1) options s j damping →
            j = 0 ∧ ¬ Tried r (Vec.fill 1) options s damping (.done .exhausted))
    ∧ (fit r (Vec.fill 1) x₀ options).events = []
    ∧ (∀ x, (NormalEquations.ofAll r x (Vec.fill 1) options).rhs.norm
        = (a.transpose.mulVec (a.mulVec x - y)).norm)
    ∧ ∀ result, (fit r (Vec.fill 1) x₀ options).outcome = .ok result →
        ∃ s, Visited r (Vec.fill 1) x₀ options result.iterations s
          ∧ result.x = s.x
          ∧ (result.converged = true
                ∧ (a.transpose.mulVec (a.mulVec result.x - y)).norm < options.tolerance
              ∨ result.converged = true
                ∧ (∃ d, Suggests r (Vec.fill 1) options s s.damping d ∧ Negligible options s d)
              ∨ result.converged = false ∧ result.iterations = options.iterations)
  := by
  have haffine : IsAffine r.eval a := by
    rw [funext hr]
    exact (isAffine_mulVec a).sub_const y
  have h : Regular r a options := ⟨haffine, hspacing, htolerance, hdamping⟩
  refine ⟨?_, h.events_fit x₀, ?_, ?_⟩
  · intro k s hs
    refine ⟨h.damping_pos hs, ?_, ?_⟩
    · intro d hstep
      refine ⟨?_, fun hshort => (Tried.negligible hstep hshort).tryStep_eq,
        fun hlong => (h.accepted hs hstep hlong).tryStep_eq⟩
      rw [hs.cost_eq, hstep.cost_eq haffine hspacing]
    · intro j damping hrejected
      exact ⟨(h.rejected_eq hs hrejected).1, h.not_exhausted hs hrejected⟩
  · intro x
    rw [h.norm_rhs, hr]
  · intro result hresult
    obtain ⟨s, hs, hexit⟩ := exists_exit hresult
    have hend := h.ends hs hexit
    rw [hr] at hend
    exact ⟨s, hs, hexit.eq.1, hend⟩

/-- One equation for two unknowns is fitted. Without damping it would have no direction. -/
theorem fit_affine_accepts_sum :
  let a : Mat ℝ 1 2 := Mat.ofFn ![![1, 1]]
  let options : Options ℝ := .standard (1 / 1000)
  let start : State ℝ 2 := ⟨0, sumToOne.cost (Vec.fill 1) 0, options.damping⟩
  (∃ d, Suggests sumToOne (Vec.fill 1) options start options.damping d
      ∧ sumToOne.cost (Vec.fill 1) (0 + d)
        = start.cost - ((a.mulVec d).normSquared + 2 * options.damping * d.normSquared))
    ∧ (fit sumToOne (Vec.fill 1) 0 options).events = []
  := by
  intro a options start
  have haffine : ∀ x, sumToOne.eval x = a.mulVec x - Vec.fill 1 := by
    intro x
    ext i
    obtain rfl := Subsingleton.elim 0 i
    simp [sumToOne, Residuals.ofFunction, a, Mat.get_mulVec, Fin.foldl_succ_last]
  have htolerance : 0 < options.tolerance := by
    show (0 : ℝ) < 1 / 1000
    norm_num
  have hdamping : options.damping = 1 / 1000 := by
    show ratio 1 1000 = (1 / 1000 : ℝ)
    rw [ratio_eq]
    norm_num
  have hpos : 0 < options.damping := by
    rw [hdamping]
    norm_num
  obtain ⟨hvisited, hevents, -⟩ := fit_affine_accepts sumToOne a (Vec.fill 1) haffine 0 options
    (Options.spacing_standard_ne_zero _) htolerance hpos
  have hwell := wellPosed_damped sumToOne 0 fill_one_nonneg options hpos (by
    rw [hdamping]
    exact floor_sumToOne _)
  obtain ⟨d, hd, -⟩ := hwell.solutions (NormalEquations.ofAll sumToOne 0 (Vec.fill 1) options).rhs
  obtain ⟨-, hsteps, -⟩ := hvisited 0 start .start
  exact ⟨⟨d, hd, (hsteps d hd).1⟩, hevents⟩

end Numerics.LevenbergMarquardt
