import Mathlib.Algebra.Order.Archimedean.Basic
import Numerics.Proofs.LeastSquares.Damping
import Numerics.Proofs.LeastSquares.Directions
import Numerics.Proofs.LeastSquares.Evaluations

/-!
# Damping settles

The search for a step is on a budget of trials. In exact arithmetic, with a positive first damping
and a factor above one, no search needs as many trials as the budget has, if only the budget is
large enough: each rejected trial raises the damping by the factor, and the search is given up where
the damping is above its limit. Between two searches the damping may fall, but never below
`smallestDamping` or the first damping. So one bound on the trials holds for all searches of all
fits with the same options, and the fit does not depend on a budget beyond that bound.
-/

namespace Numerics.LevenbergMarquardt

variable {α : Type} [ExactScalar α] {n m : Nat} {r : Residuals α n m} {w : Vec α m} {x₀ : Vec α n}
  {options : Options α} {k b : Nat} {s : State α n}

theorem largestDamping_eq :
  (largestDamping : α) = 10 ^ 12
  := by
  rw [largestDamping, nat_eq]
  norm_num

theorem smallestDamping_pos :
  0 < (smallestDamping : α)
  := by
  rw [smallestDamping, ratio_eq]
  positivity

/-! ### Searches -/

/-- Each rejected trial raises the damping once. -/
theorem Rejected.damping_eq {j : Nat} {damping : α} (h : Rejected r w options s j damping) :
  damping = s.damping * options.dampingIncrease ^ j
  := by
  induction h with
  | none => rw [pow_zero, mul_one]
  | more _ htried ih =>
    cases htried with
    | rejected => rw [ih, mul_assoc, pow_succ]

/-- The damping is raised up to its limit only. -/
theorem Rejected.damping_le {j : Nat} {damping : α}
    (h : Rejected r w options s (j + 1) damping) :
  damping ≤ largestDamping
  := by
  cases h with
  | more _ htried =>
    cases htried with
    | rejected _ _ _ hlarge => exact not_lt.mp hlarge

/-- A search that starts with `damping` and rejects `b` trials has lifted the damping above its
limit. -/
structure Settles (options : Options α) (damping : α) (b : Nat) : Prop where
  increase : 1 < options.dampingIncrease
  pos : 0 < damping
  exceeds : 10 ^ 12 < damping * options.dampingIncrease ^ b

theorem Settles.mono {damping damping' : α} {b' : Nat} (h : Settles options damping b)
    (hdamping : damping ≤ damping') (hb : b ≤ b') :
  Settles options damping' b'
  := by
  have hpos : 0 < options.dampingIncrease ^ b := pow_pos (one_pos.trans h.increase) b
  have hpower : options.dampingIncrease ^ b ≤ options.dampingIncrease ^ b' :=
    pow_le_pow_right₀ h.increase.le hb
  refine ⟨h.increase, h.pos.trans_le hdamping, ?_⟩
  calc (10 : α) ^ 12
    _ < damping * options.dampingIncrease ^ b := h.exceeds
    _ ≤ damping' * options.dampingIncrease ^ b' :=
      mul_le_mul hdamping hpower hpos.le (h.pos.le.trans hdamping)

/-- Every search settles, and there is a least number of trials in which it does. -/
theorem exists_settles [Archimedean α] (hincrease : 1 < options.dampingIncrease) {damping : α}
    (hdamping : 0 < damping) :
  ∃ b, IsLeast {b | 10 ^ 12 < damping * options.dampingIncrease ^ b} b
    ∧ Settles options damping b
  := by
  classical
  have h : ∃ b, 10 ^ 12 < damping * options.dampingIncrease ^ b := by
    obtain ⟨b, hb⟩ := pow_unbounded_of_one_lt (10 ^ 12 / damping) hincrease
    use b
    rw [mul_comm]
    exact (div_lt_iff₀ hdamping).mp hb
  exact ⟨Nat.find h, Nat.isLeast_find h, hincrease, hdamping, Nat.find_spec h⟩

/-- A search rejects no more trials than it takes to settle. -/
theorem Settles.rejected_le (h : Settles options s.damping b) {j : Nat} {damping : α}
    (hrejected : Rejected r w options s j damping) :
  j ≤ b
  := by
  cases j with
  | zero => exact Nat.zero_le b
  | succ j =>
    by_contra hlate
    have hexceeds := (h.mono le_rfl (Nat.lt_of_not_le hlate).le).exceeds
    rw [← largestDamping_eq, ← hrejected.damping_eq] at hexceeds
    exact hrejected.damping_le.not_gt hexceeds

theorem Settles.not_reached (h : Settles options s.damping b) (damping : α) :
  ¬ Reached (fun _ => tryStep r w options (.ofAll r s.x w options) s) s.damping (b + 1) damping
  := by
  intro hreached
  exact Nat.not_succ_le_self b (h.rejected_le (rejected_of_reached hreached))

/-- A search does not notice a budget beyond the trials that it takes to settle. -/
theorem Settles.findStep_eq (h : Settles options s.damping b)
    (hrounds : b < options.dampingRounds) :
  findStep r w options (.ofAll r s.x w options) s
    = findStep r w { options with dampingRounds := b + 1 } (.ofAll r s.x w options) s
  := iterate_eq_of_not_reached h.not_reached hrounds

theorem tryStep_eq_error {damping : α} {e : SolverError}
    (h : tryStep r w options (.ofAll r s.x w options) s damping = .error e) :
  e = .singularSystem
  := by
  rw [tryStep] at h
  obtain hsolve | ⟨d, -, h⟩ := bind_eq_error.mp h
  · exact NormalEquations.solve_eq_error hsolve
  · split at h
    · cases h
    · dsimp only at h
      split at h
      · cases h
      · split at h <;> cases h

/-- With trials enough, a search fails only where a damped system has no unique solution. -/
theorem Settles.findStep_eq_error (h : Settles options s.damping b)
    (hrounds : b < options.dampingRounds) {e : SolverError}
    (herror : findStep r w options (.ofAll r s.x w options) s = .error e) :
  e = .singularSystem
  := by
  rw [h.findStep_eq hrounds] at herror
  obtain ⟨_, damping, hreached, ⟨-, htry⟩ | ⟨rfl, -⟩⟩ := exists_reached_error herror
  · exact tryStep_eq_error htry
  · exact absurd hreached (h.not_reached damping)

/-! ### Fits -/

theorem Settles.step_eq_error (h : Settles options s.damping b)
    (hrounds : b < options.dampingRounds) {e : SolverError}
    (herror : (step r w options k s).outcome = .error e) :
  e = .singularSystem
  := by
  rw [step] at herror
  split at herror
  · cases herror
  · rw [Run.outcome_bind] at herror
    obtain hsearch | ⟨ending, -, hlast⟩ := bind_eq_error.mp herror
    · exact h.findStep_eq_error hrounds hsearch
    · cases ending <;> cases hlast

/-- The least damping that a search of a fit may start with. -/
def leastDamping (options : Options α) : α :=
  min options.damping smallestDamping

theorem leastDamping_pos (hdamping : 0 < options.damping) :
  0 < leastDamping options
  := lt_min hdamping smallestDamping_pos

theorem Visited.leastDamping_le (h : Visited r w x₀ options k s) :
  leastDamping options ≤ s.damping
  := by
  cases h with
  | start => exact min_le_left _ _
  | next _ hstep =>
    apply (min_le_right _ _).trans
    obtain ⟨_, _, _, ht, -, htried⟩ | ⟨_, ht, -⟩ := step_eq_ok hstep
    · cases ht
      cases htried with
      | accepted =>
        rw [maxNum_eq]
        exact le_max_right _ _
    · cases ht

/-- A fit does not notice a budget beyond the trials that its searches take to settle. -/
theorem Settles.fit_eq (h : Settles options (leastDamping options) b)
    (hrounds : b < options.dampingRounds) :
  fit r w x₀ options = fit r w x₀ { options with dampingRounds := b + 1 }
  := by
  apply Run.iterate_congr .start
  intro i s hs
  rw [step, step, (h.mono (Visited.leastDamping_le hs) le_rfl).findStep_eq hrounds]
  rfl

/-- With trials enough, a fit fails only where a damped system has no unique solution. -/
theorem Settles.fit_eq_error (h : Settles options (leastDamping options) b)
    (hrounds : b < options.dampingRounds) {e : SolverError}
    (herror : (fit r w x₀ options).outcome = .error e) :
  e = .singularSystem
  := by
  rw [fit, Run.outcome_iterate] at herror
  obtain ⟨k, s, hs, ⟨-, hstep⟩ | ⟨-, hlast⟩⟩ := exists_reached_error herror
  · exact (h.mono (Visited.leastDamping_le hs) le_rfl).step_eq_error hrounds hstep
  · cases hlast

/-- In exact arithmetic, let the first damping be positive and the factor of the damping greater
than one. Then the damping is positive at the start of every search. A search rejects at most `b`
trials, where `b` is the least number of raises that lift its damping above `10 ^ 12`, and so does
not need a budget of more than `b + 1` trials. One such bound holds for all searches of all fits
with these options: a fit with any larger budget is the same run. It ends with a result, or with a
damped system that has no unique solution, and it reads the residuals at a bounded number of points.
-/
theorem fit_settles [Archimedean α] (r : Residuals α n m) (w : Vec α m) (x₀ : Vec α n)
    (options : Options α) (hdamping : 0 < options.damping)
    (hincrease : 1 < options.dampingIncrease) :
  (∀ k s, Visited r w x₀ options k s →
      0 < s.damping
        ∧ ∃ b, IsLeast {b | 10 ^ 12 < s.damping * options.dampingIncrease ^ b} b
          ∧ (∀ j damping, Rejected r w options s j damping → j ≤ b)
          ∧ ∀ rounds, b < rounds →
              findStep r w { options with dampingRounds := rounds } (.ofAll r s.x w options) s
                = findStep r w { options with dampingRounds := b + 1 } (.ofAll r s.x w options) s)
    ∧ ∃ b, IsLeast {b | 10 ^ 12 < leastDamping options * options.dampingIncrease ^ b} b
        ∧ ∀ rounds, b < rounds →
            fit r w x₀ { options with dampingRounds := rounds }
                = fit r w x₀ { options with dampingRounds := b + 1 }
              ∧ ((∃ result,
                    (fit r w x₀ { options with dampingRounds := rounds }).outcome = .ok result)
                ∨ (fit r w x₀ { options with dampingRounds := rounds }).outcome
                    = .error .singularSystem)
              ∧ r.ReadsAtMost (1 + options.iterations * (n * 6 + 1 + (b + 1)))
                  fun r => fit r w x₀ { options with dampingRounds := rounds }
  := by
  have hleast := leastDamping_pos hdamping
  constructor
  · intro k s hs
    have hpos := hleast.trans_le hs.leastDamping_le
    obtain ⟨b, hb, hsettles⟩ := exists_settles hincrease hpos
    refine ⟨hpos, b, hb, fun j damping => hsettles.rejected_le, ?_⟩
    intro rounds hrounds
    have hsettles' : Settles { options with dampingRounds := rounds } s.damping b :=
      ⟨hincrease, hpos, hsettles.exceeds⟩
    exact hsettles'.findStep_eq hrounds
  · obtain ⟨b, hb, hsettles⟩ := exists_settles hincrease hleast
    refine ⟨b, hb, ?_⟩
    intro rounds hrounds
    have hsettles' : Settles { options with dampingRounds := rounds } (leastDamping options) b :=
      ⟨hincrease, hleast, hsettles.exceeds⟩
    refine ⟨hsettles'.fit_eq hrounds, ?_, ?_⟩
    · cases hfit : (fit r w x₀ { options with dampingRounds := rounds }).outcome with
      | ok result => exact .inl ⟨result, rfl⟩
      | error e =>
        right
        rw [hsettles'.fit_eq_error hrounds hfit]
    · apply (readsAtMost_fit r w { options with dampingRounds := b + 1 } x₀).congr
      intro r' h
      rw [hsettles'.fit_eq hrounds, hsettles'.fit_eq hrounds, h]

/-- A fit of a line with the default damping and factor takes at most `26` trials in a row. -/
theorem fit_settles_line :
  let r : Residuals ℚ 1 1 := .ofFunction fun x => Vec.ofFn fun _ => x 0 / 4 - 1
  let options : Options ℚ := .standard (1 / 1000)
  ∀ rounds, 25 < rounds →
    fit r (Vec.fill 1) 0 { options with dampingRounds := rounds }
      = fit r (Vec.fill 1) 0 { options with dampingRounds := 26 }
  := by
  intro r options rounds hrounds
  have hdamping : options.damping = 1 / 1000 := rfl
  have hincrease : options.dampingIncrease = 10 := nat_eq 10
  have hleast : leastDamping options = 1 / 10 ^ 12 := by
    rw [leastDamping, hdamping, smallestDamping, ratio_eq]
    norm_num
  obtain ⟨-, b, ⟨-, hb⟩, h⟩ := fit_settles r (Vec.fill 1) 0 options
    (by rw [hdamping]; norm_num) (by rw [hincrease]; norm_num)
  have hle : b ≤ 25 := by
    apply hb
    show 10 ^ 12 < leastDamping options * options.dampingIncrease ^ 25
    rw [hleast, hincrease]
    norm_num
  rw [(h rounds (hle.trans_lt hrounds)).1, (h 26 (Nat.lt_succ_of_le hle)).1]

end Numerics.LevenbergMarquardt
