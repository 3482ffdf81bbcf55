import Numerics.Proofs.Filter.Covariance

/-!
# Optimality of the linear correction

The information about a state is the inverse of its covariance. A measurement adds to it the
information in the measurement, and `Belief.information` is the sum. With exact scalars and positive
definite covariances it is the inverse of the corrected covariance,
`IsGain.corrected_mul_information`, although the correction never inverts the prior covariance or
that of the noise.

`Kalman.misfit` weighs the difference of a state from the prediction, and that of its measurement
from what was measured, by their informations. It is a strictly convex function of the state, and
the corrected estimate is where it is least, by `Kalman.misfit_correct_add`.
-/

namespace Numerics

open Matrix

variable {α : Type} [ExactScalar α] {n m c : Nat}

namespace Belief

/-! ### Information -/

/-- The information about a state with the covariance `p`, after a measurement with the observation
matrix `h` and noise of the covariance `r`. -/
noncomputable def information (p : Mat α n n) (h : Mat α m n) (r : Mat α m m) : Mat α n n :=
  p⁻¹ + h.transpose * r⁻¹ * h

section

variable {p : Mat α n n} {h : Mat α m n} {r : Mat α m m} {k : Mat α n m}

theorem information_form (p : Mat α n n) (h : Mat α m n) (r : Mat α m m) (v : Vec α n) :
  (information p h r).form v = p⁻¹.form v + r⁻¹.form (h.mulVec v)
  := by
  have hcongruence := Mat.form_congruence h.transpose r⁻¹ v
  rw [Mat.transpose_transpose] at hcongruence
  rw [information, Mat.form_add, hcongruence]

theorem information_form_pos (hp : p.PosDef) (hr : r.PosDef) {v : Vec α n} (hv : v ≠ 0) :
  0 < (information p h r).form v
  := by
  rw [information_form]
  apply add_pos_of_pos_of_nonneg (hp.inv.form_pos v hv) (hr.inv.posSemidef.form_nonneg _)

namespace IsGain

/-- The gain weighs a measurement by its information and by the corrected covariance. -/
theorem eq_corrected_mul (hk : IsGain p h r k) (hr : r.PosDef) :
  k = corrected p h k * h.transpose * r⁻¹
  := by
  rw [hk.corrected_mul_transpose, Mat.mul_assoc, Mat.mul_inv_cancel hr.isUnit_det, Mat.mul_identity]

/-- The corrected covariance is the inverse of the information. -/
theorem corrected_mul_information (hk : IsGain p h r k) (hp : p.PosDef) (hr : r.PosDef) :
  corrected p h k * information p h r = Mat.identity
  := by
  have hprior : corrected p h k * p⁻¹ = (Mat.identity : Mat α n n) - k * h := by
    rw [corrected, Mat.mul_assoc, Mat.mul_inv_cancel hp.isUnit_det, Mat.mul_identity]
  have hmeasured : corrected p h k * (h.transpose * r⁻¹ * h) = k * h := by
    rw [← Mat.mul_assoc, ← Mat.mul_assoc, ← hk.eq_corrected_mul hr]
  rw [information, Mat.mul_add, hprior, hmeasured, Mat.sub_add_cancel]

theorem information_mul_corrected (hk : IsGain p h r k) (hp : p.PosDef) (hr : r.PosDef) :
  information p h r * corrected p h k = Mat.identity
  := Mat.mul_eq_identity_comm.mp (hk.corrected_mul_information hp hr)

theorem information_mul_gain (hk : IsGain p h r k) (hp : p.PosDef) (hr : r.PosDef) :
  information p h r * k = h.transpose * r⁻¹
  := by
  rw [hk.eq_corrected_mul hr, ← Mat.mul_assoc, ← Mat.mul_assoc,
    hk.information_mul_corrected hp hr, Mat.identity_mul]

/-- What the gain makes of a difference `e` balances what is left of it, each weighed by its
information. -/
theorem mulVec_gain (hk : IsGain p h r k) (hp : p.PosDef) (hr : r.PosDef) (e : Vec α m) :
  p⁻¹.mulVec (k.mulVec e) = h.transpose.mulVec (r⁻¹.mulVec (e - h.mulVec (k.mulVec e)))
  := by
  have hgain := congrArg (fun a => (a.mulVec e).toFun) (hk.information_mul_gain hp hr)
  rw [← Vec.toFun_inj]
  simp only [information, Mat.toMatrix_mul, Mat.toMatrix_add, Mat.toFun_mulVec, Vec.toFun_sub,
    add_mulVec, mulVec_sub, ← mulVec_mulVec] at hgain ⊢
  apply eq_sub_of_add_eq hgain

end IsGain

end

end Belief

namespace Kalman

/-! ### Misfit -/

/-- How badly the state `y` fits the prediction of `f` and the measurement `z`. -/
noncomputable def misfit (f : Kalman α n m c) (z : Vec α m) (y : Vec α n) : α :=
  f.belief.pPrior⁻¹.form (y - f.belief.xPrior)
    + f.measurementNoise⁻¹.form (z - f.observation.mulVec y)

/-- The information about the state after a measurement. -/
noncomputable def information (f : Kalman α n m c) : Mat α n n :=
  Belief.information f.belief.pPrior f.observation f.measurementNoise

variable {f g : Kalman α n m c} {z : Vec α m}

/-- The corrected estimate balances the prediction and the measurement. -/
theorem mulVec_correct_sub (hp : f.belief.pPrior.PosDef) (hr : f.measurementNoise.PosDef)
    (h : f.correct z = .ok g) :
  f.belief.pPrior⁻¹.mulVec (g.belief.x - f.belief.xPrior)
    = f.observation.transpose.mulVec
        (f.measurementNoise⁻¹.mulVec (z - f.observation.mulVec g.belief.x))
  := by
  obtain ⟨hk, hx, -, -⟩ := Belief.correct_eq_ok (correct_eq_ok h).1
  have hleft : z - f.observation.mulVec g.belief.x
      = (z - f.observation.mulVec f.belief.xPrior) - f.observation.mulVec
          (g.belief.gain.mulVec (z - f.observation.mulVec f.belief.xPrior)) := by
    rw [hx, ← Vec.toFun_inj]
    simp only [Mat.toFun_mulVec, Vec.toFun_sub, Vec.toFun_add, mulVec_add]
    rw [sub_add_eq_sub_sub]
  have hmoved : g.belief.x - f.belief.xPrior
      = g.belief.gain.mulVec (z - f.observation.mulVec f.belief.xPrior) := by
    rw [hx, ← Vec.toFun_inj, Vec.toFun_sub, Vec.toFun_add, add_sub_cancel_left]
  rw [hleft, hmoved]
  apply hk.mulVec_gain hp hr

/-- The misfit at a distance `d` from the corrected estimate exceeds the one there by the form of
the information. -/
theorem misfit_correct_add (hp : f.belief.pPrior.PosDef) (hr : f.measurementNoise.PosDef)
    (h : f.correct z = .ok g) (d : Vec α n) :
  f.misfit z (g.belief.x + d) = f.misfit z g.belief.x + f.information.form d
  := by
  have hbalance := congrArg d.dot (mulVec_correct_sub hp hr h)
  rw [Mat.dot_transpose_mulVec] at hbalance
  have hstate : g.belief.x + d - f.belief.xPrior = (g.belief.x - f.belief.xPrior) + d := by
    ext i
    simp only [Vec.get_add, Vec.get_sub]
    ring
  have hmeasured : z - f.observation.mulVec (g.belief.x + d)
      = (z - f.observation.mulVec g.belief.x) - f.observation.mulVec d := by
    rw [← Vec.toFun_inj]
    simp only [Mat.toFun_mulVec, Vec.toFun_sub, Vec.toFun_add, mulVec_add]
    rw [sub_sub]
  rw [misfit, misfit, hstate, hmeasured, Mat.form_vec_add hp.inv.symmetric,
    Mat.form_vec_sub hr.inv.symmetric, hbalance, information, Belief.information_form]
  ring

/-- With exact scalars and positive definite covariances of the prediction and of the noise, the
corrected estimate is the only state of the least misfit, and the corrected covariance is the
inverse of the information. -/
theorem correct_optimal (f g : Kalman α n m c) (z : Vec α m) (hp : f.belief.pPrior.PosDef)
    (hr : f.measurementNoise.PosDef) (h : f.correct z = .ok g) :
  (∀ y, y ≠ g.belief.x → f.misfit z g.belief.x < f.misfit z y)
    ∧ g.belief.p * f.information = Mat.identity
    ∧ f.information * g.belief.p = Mat.identity
  := by
  obtain ⟨hb, -⟩ := correct_eq_ok h
  obtain ⟨hk, -⟩ := Belief.correct_eq_ok hb
  rw [Belief.correct_covariance hb hp.posSemidef hr.posSemidef]
  constructor
  · intro y hy
    have hd : y - g.belief.x ≠ 0 := by
      intro hzero
      apply hy
      rw [← Vec.toFun_inj, Vec.toFun_sub, Vec.toFun_zero, sub_eq_zero, Vec.toFun_inj] at hzero
      exact hzero
    have hadd : y = g.belief.x + (y - g.belief.x) := by
      rw [← Vec.toFun_inj, Vec.toFun_add, Vec.toFun_sub, add_sub_cancel]
    rw [hadd, misfit_correct_add hp hr h]
    apply lt_add_of_pos_right
    apply Belief.information_form_pos hp hr hd
  · use hk.corrected_mul_information hp hr, hk.information_mul_corrected hp hr

/-- The sum of two uncertain numbers is measured. -/
theorem correct_optimal_sum :
  let f : Kalman ℚ 2 1 0 :=
    { initial.reset 0 4 with
      observation := Mat.ofFn ![![1, 1]]
      measurementNoise := Mat.scaledIdentity 2 }
  ∃ g, f.correct (Vec.fill 5) = .ok g
    ∧ (∀ y, y ≠ g.belief.x → f.misfit (Vec.fill 5) g.belief.x < f.misfit (Vec.fill 5) y)
    ∧ g.belief.p * f.information = Mat.identity
  := by
  intro f
  have hok : (f.correct (Vec.fill 5)).isOk = true := by
    decide +kernel
  obtain ⟨g, hg⟩ := exists_of_isOk hok
  obtain ⟨hleast, hinverse, -⟩ := correct_optimal f g (Vec.fill 5)
    (Mat.posDef_scaledIdentity four_pos) (Mat.posDef_scaledIdentity two_pos) hg
  use g, hg, hleast, hinverse

end Kalman

end Numerics
