import Mathlib.Algebra.Order.Field.Basic
import Numerics.Filter.Kalman
import Numerics.Proofs.Filter.Correction
import Numerics.Proofs.Linear.Resolution

/-!
# When a measurement can be used

The difference of a measurement from the predicted one has the covariance `Kalman.innovation`. It is
positive definite if the noise of the measurement is, so it has an inverse, and the only thing that
can stop a correction is that elimination does not find this inverse. That happens exactly at a
column that fades. It does not happen to a covariance that is resolved, nor to a single measured
variable.

It does happen if the variables are measured in units that are far apart: the covariance of a small
variable is negligible beside that of a large one, however well both are measured.
-/

namespace Numerics

variable {α : Type} [ExactScalar α] {n m c : Nat}

/-- A correction succeeds exactly if elimination factors the covariance of the innovation. -/
theorem Belief.exists_correct_iff (b : Belief α n m) (h : Mat α m n) (r : Mat α m m)
    (predicted z : Vec α m) :
  (∃ b', b.correct h r predicted z = .ok b')
    ↔ ∃ s, Linear.LU.factor (propagate h b.pPrior + r) = .ok s
  := by
  rw [correct, gainFor, Mat.inverse]
  cases Linear.LU.factor (propagate h b.pPrior + r) with
  | ok s =>
    constructor
    · intro _
      use s
    · intro _
      exact ⟨_, rfl⟩
  | error e =>
    constructor
    · rintro ⟨b', hb⟩
      cases hb
    · rintro ⟨s, hs⟩
      cases hs

namespace Kalman

/-- The covariance of the difference of a measurement from the predicted one. -/
def innovation (f : Kalman α n m c) : Mat α m m :=
  Belief.propagate f.observation f.belief.pPrior + f.measurementNoise

theorem innovation_posDef {f : Kalman α n m c} (hp : f.belief.pPrior.PosSemidef)
    (hr : f.measurementNoise.PosDef) :
  f.innovation.PosDef
  := (hp.congruence f.observation).add_posDef hr

theorem exists_correct_iff (f : Kalman α n m c) (z : Vec α m) :
  (∃ g, f.correct z = .ok g) ↔ ∃ s, Linear.LU.factor f.innovation = .ok s
  := by
  rw [innovation, ← Belief.exists_correct_iff f.belief f.observation f.measurementNoise
    (f.observation.mulVec f.belief.xPrior) z]
  constructor
  · rintro ⟨g, hg⟩
    obtain ⟨b, hb, -⟩ := bind_eq_ok.mp hg
    use b
  · rintro ⟨b, hb⟩
    rw [correct, hb]
    exact ⟨_, rfl⟩

/-- A correction that fails reports that elimination failed. -/
theorem correct_eq_error_iff (f : Kalman α n m c) (z : Vec α m) :
  f.correct z = .error .singularInnovation ↔ ∃ k, Linear.LU.Fades f.innovation k
  := by
  have hcorrect : ∀ e, f.correct z = .error e → e = .singularInnovation := by
    rintro ⟨⟩ _
    rfl
  have hfactor : ∀ e, Linear.LU.factor f.innovation = .error e → e = .singular :=
    fun _ => Linear.LU.factor_eq_error
  rw [← Linear.LU.factor_eq_error_iff, eq_error_iff hcorrect, eq_error_iff hfactor,
    exists_correct_iff]

/-- With exact scalars, a positive semidefinite covariance of the prediction and a positive definite
one of the noise, the covariance of the innovation is positive definite. A correction with any
measurement fails exactly if elimination comes to a column of this covariance that is negligible, on
and below the diagonal, beside its largest entry. So it succeeds if the covariance is resolved, and
if at most one variable is measured. -/
theorem correct_fails_iff (hε : (epsilon : α) < 1) (f : Kalman α n m c) (z : Vec α m)
    (hp : f.belief.pPrior.PosSemidef) (hr : f.measurementNoise.PosDef) :
  f.innovation.PosDef
    ∧ (f.correct z = .error .singularInnovation ↔ ∃ k, Linear.LU.Fades f.innovation k)
    ∧ (f.innovation.Resolved → ∃ g, f.correct z = .ok g)
    ∧ (m ≤ 1 → ∃ g, f.correct z = .ok g)
  := by
  have hdef := innovation_posDef hp hr
  have hok : f.innovation.Resolved → ∃ g, f.correct z = .ok g := by
    intro h
    rw [exists_correct_iff]
    apply Linear.LU.exists_factor_of_resolved h
  use hdef, f.correct_eq_error_iff z, hok
  intro hm
  apply hok (hdef.resolved_of_le_one hm hε)

/-- The sum and the difference of two numbers are measured. -/
theorem correct_fails_iff_sum_difference :
  let f : Kalman ℚ 2 2 0 :=
    { initial.reset 0 4 with
      observation := Mat.ofFn ![![1, 1], ![1, -1]]
      measurementNoise := Mat.scaledIdentity 2 }
  (epsilon : ℚ) < 1
    ∧ f.belief.pPrior.PosSemidef
    ∧ f.measurementNoise.PosDef
    ∧ f.innovation.PosDef
    ∧ (∃ g, f.correct (Vec.fill 5) = .ok g)
    ∧ ¬ ∃ k, Linear.LU.Fades f.innovation k
  := by
  intro f
  have hε : (epsilon : ℚ) < 1 := by decide +kernel
  have hp : f.belief.pPrior.PosSemidef := (Mat.posDef_scaledIdentity four_pos).posSemidef
  have hr : f.measurementNoise.PosDef := Mat.posDef_scaledIdentity two_pos
  obtain ⟨hdef, hfails, -⟩ := correct_fails_iff hε f (Vec.fill 5) hp hr
  have hok : (f.correct (Vec.fill 5)).isOk = true := by
    decide +kernel
  obtain ⟨g, hg⟩ := exists_of_isOk hok
  refine ⟨hε, hp, hr, hdef, ⟨g, hg⟩, ?_⟩
  rw [← hfails, hg]
  intro h
  cases h

/-- Two numbers are measured equally well, the second one in a unit that is larger by a factor of
`2 ^ 30`. The correction fails, although the covariances of the prediction and of the noise are
positive definite. -/
theorem correct_mixed_units :
  let f : Kalman ℚ 2 2 0 :=
    { initial with
      observation := Mat.diagonal (Vec.ofFn ![1, 1 / 2 ^ 30])
      measurementNoise := Mat.diagonal (Vec.ofFn ![1, 1 / 2 ^ 60]) }
  (epsilon : ℚ) = 1 / 2 ^ 52
    ∧ f.belief.pPrior.PosDef
    ∧ f.measurementNoise.PosDef
    ∧ f.correct (Vec.ofFn ![2, 1 / 2 ^ 29]) = .error .singularInnovation
  := by
  intro f
  refine ⟨rfl, Mat.posDef_identity, ?_, ?_⟩
  · apply Mat.posDef_diagonal
    decide +kernel
  · cases h : f.correct (Vec.ofFn ![2, 1 / 2 ^ 29]) with
    | ok g =>
      have hfails : (f.correct (Vec.ofFn ![2, 1 / 2 ^ 29])).isOk = false := by
        decide +kernel
      rw [h] at hfails
      cases hfails
    | error e => rfl

end Kalman

end Numerics
