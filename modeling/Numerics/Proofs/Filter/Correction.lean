import Mathlib.Algebra.Order.Field.Basic
import Numerics.Filter.Belief
import Numerics.Proofs.Linear.Elimination
import Numerics.Proofs.Mat.Positive

/-!
# Corrections in exact arithmetic

With exact scalars the gain `k` of a correction satisfies the equation `IsGain`: its product with
the covariance of the difference from the predicted measurement is `p * h.transpose`. So the
corrected covariance is the sum of two congruences, `IsGain.corrected_eq_add`, and the prior
covariance exceeds it by a congruence, `IsGain.eq_corrected_add`.

By the first equation a correction turns covariances into covariances, `Valid.correct`, and by the
second it adds uncertainty in no direction, `form_correct_le`.
-/

namespace Numerics

open Matrix

variable {α : Type} [ExactScalar α] {n m : Nat}

namespace Belief

/-! ### Gains -/

/-- The matrix `k` is a gain for the covariance `p` before the measurement, the observation matrix
`h` and the covariance `r` of the noise of the measurement. -/
def IsGain (p : Mat α n n) (h : Mat α m n) (r : Mat α m m) (k : Mat α n m) : Prop :=
  k * (propagate h p + r) = p * h.transpose

/-- The covariance `p`, corrected with the observation matrix `h` and the gain `k`. -/
def corrected (p : Mat α n n) (h : Mat α m n) (k : Mat α n m) : Mat α n n :=
  ((Mat.identity : Mat α n n) - k * h) * p

theorem gainFor_eq_ok {p : Mat α n n} {h : Mat α m n} {r : Mat α m m} {k : Mat α n m}
    (hk : gainFor p h (propagate h p + r) = .ok k) :
  IsGain p h r k
  := by
  rw [gainFor] at hk
  cases ht : (propagate h p + r).inverse with
  | error e =>
    rw [ht] at hk
    cases hk
  | ok t =>
    rw [ht] at hk
    cases hk
    obtain ⟨-, hleft⟩ := Linear.LU.inverse_eq_ok ht
    rw [IsGain, Mat.mul_assoc, hleft, Mat.mul_identity]

namespace IsGain

variable {p : Mat α n n} {h : Mat α m n} {r : Mat α m m} {k : Mat α n m}

theorem toMatrix_eq (hk : IsGain p h r k) :
  k.toMatrix * (h.toMatrix * p.toMatrix * h.toMatrixᵀ + r.toMatrix) = p.toMatrix * h.toMatrixᵀ
  := by
  rw [IsGain, ← Mat.toMatrix_inj] at hk
  simp only [propagate, Mat.toMatrix_mul, Mat.toMatrix_add, Mat.toMatrix_transpose] at hk
  exact hk

theorem corrected_mul_transpose (hk : IsGain p h r k) :
  corrected p h k * h.transpose = k * r
  := by
  rw [← Mat.toMatrix_inj]
  simp only [corrected, Mat.toMatrix_mul, Mat.toMatrix_sub, Mat.toMatrix_identity,
    Mat.toMatrix_transpose]
  calc (1 - k.toMatrix * h.toMatrix) * p.toMatrix * h.toMatrixᵀ
    _ = p.toMatrix * h.toMatrixᵀ - k.toMatrix * (h.toMatrix * p.toMatrix * h.toMatrixᵀ) := by
      simp only [Matrix.sub_mul, Matrix.one_mul, Matrix.mul_assoc]
    _ = k.toMatrix * r.toMatrix := by
      rw [← hk.toMatrix_eq, Matrix.mul_add, add_sub_cancel_left]

/-- The corrected covariance is what is left of the prior one and what the noise of the measurement
brings in. -/
theorem corrected_eq_add (hk : IsGain p h r k) :
  corrected p h k = propagate ((Mat.identity : Mat α n n) - k * h) p + propagate k r
  := by
  have hcross := hk.corrected_mul_transpose
  rw [← Mat.toMatrix_inj] at hcross ⊢
  simp only [corrected, propagate, Mat.toMatrix_mul, Mat.toMatrix_sub, Mat.toMatrix_add,
    Mat.toMatrix_identity, Mat.toMatrix_transpose] at hcross ⊢
  rw [← hcross, transpose_sub, transpose_one, transpose_mul, Matrix.mul_sub, Matrix.mul_one,
    ← Matrix.mul_assoc, sub_add_cancel]

/-- The prior covariance exceeds the corrected one by the covariance of the correction. -/
theorem eq_corrected_add (hk : IsGain p h r k) (hp : p.transpose = p) (hr : r.transpose = r) :
  p = corrected p h k + propagate k (propagate h p + r)
  := by
  have hs : (propagate h p + r).transpose = propagate h p + r := by
    rw [Mat.transpose_add, propagate, Mat.transpose_congruence h hp, hr]
  have hgain : h * p = (propagate h p + r) * k.transpose := by
    rw [← hs, ← Mat.transpose_mul, hk, Mat.transpose_mul, Mat.transpose_transpose, hp]
  rw [propagate, Mat.mul_assoc k, ← hgain, ← Mat.toMatrix_inj]
  simp only [corrected, Mat.toMatrix_mul, Mat.toMatrix_sub, Mat.toMatrix_add, Mat.toMatrix_identity]
  rw [Matrix.sub_mul, Matrix.one_mul, Matrix.mul_assoc, sub_add_cancel]

theorem corrected_posSemidef (hk : IsGain p h r k) (hp : p.PosSemidef) (hr : r.PosSemidef) :
  (corrected p h k).PosSemidef
  := by
  rw [hk.corrected_eq_add]
  apply (hp.congruence _).add (hr.congruence k)

theorem form_corrected_le (hk : IsGain p h r k) (hp : p.PosSemidef) (hr : r.PosSemidef)
    (v : Vec α n) :
  (corrected p h k).form v ≤ p.form v
  := by
  have hadded := (((hp.congruence h).add hr).congruence k).form_nonneg v
  have hform := congrArg (fun a => a.form v) (hk.eq_corrected_add hp.symmetric hr.symmetric)
  rw [Mat.form_add] at hform
  rw [hform]
  apply le_add_of_nonneg_right hadded

end IsGain

/-! ### Corrections -/

section

variable {b b' : Belief α n m} {h : Mat α m n} {r : Mat α m m} {predicted z : Vec α m}

/-- A correction that succeeds finds a gain, moves the estimate along it, corrects the covariance
and keeps what was believed before the measurement. -/
theorem correct_eq_ok (hb : b.correct h r predicted z = .ok b') :
  IsGain b.pPrior h r b'.gain
    ∧ b'.x = b.xPrior + b'.gain.mulVec (z - predicted)
    ∧ b'.p = (corrected b.pPrior h b'.gain).symmetrized
    ∧ b'.pPrior = b.pPrior
  := by
  obtain ⟨k, hk, hb'⟩ := bind_eq_ok.mp hb
  obtain rfl := Except.ok.inj hb'
  exact ⟨gainFor_eq_ok hk, rfl, rfl, rfl⟩

/-- Covariances are corrected without a change by the symmetric part. -/
theorem correct_covariance (hb : b.correct h r predicted z = .ok b') (hp : b.pPrior.PosSemidef)
    (hr : r.PosSemidef) :
  b'.p = corrected b.pPrior h b'.gain
  := by
  obtain ⟨hk, -, hcorrected, -⟩ := correct_eq_ok hb
  rw [hcorrected, Mat.symmetrized_eq (hk.corrected_posSemidef hp hr).symmetric]

/-- A correction adds uncertainty in no direction. -/
theorem form_correct_le (hb : b.correct h r predicted z = .ok b') (hp : b.pPrior.PosSemidef)
    (hr : r.PosSemidef) (v : Vec α n) :
  b'.p.form v ≤ b'.pPrior.form v
  := by
  obtain ⟨hk, -, -, hprior⟩ := correct_eq_ok hb
  rw [correct_covariance hb hp hr, hprior]
  apply hk.form_corrected_le hp hr

end

/-! ### Beliefs -/

/-- The covariances of the belief `b`, before and after the measurement, are positive semidefinite.
-/
structure Valid (b : Belief α n m) : Prop where
  posterior : b.p.PosSemidef
  prior : b.pPrior.PosSemidef

theorem initial_valid :
  (initial : Belief α n m).Valid
  := by
  constructor
  · apply Mat.posDef_identity.posSemidef
  · apply Mat.posDef_identity.posSemidef

theorem withCovariance_valid (b : Belief α n m) {p : Mat α n n} (hp : p.PosSemidef) :
  (b.withCovariance p).Valid
  := by
  constructor
  · exact hp
  · exact hp

theorem Valid.predict {b : Belief α n m} (hb : b.Valid) (x : Vec α n) {p : Mat α n n}
    (hp : p.PosSemidef) :
  (b.predict x p).Valid
  := by
  constructor
  · exact hb.posterior
  · exact hp

theorem Valid.correct {b b' : Belief α n m} (hb : b.Valid) {h : Mat α m n} {r : Mat α m m}
    (hr : r.PosSemidef) {predicted z : Vec α m} (h' : b.correct h r predicted z = .ok b') :
  b'.Valid
  := by
  obtain ⟨hk, -, -, hprior⟩ := correct_eq_ok h'
  constructor
  · rw [correct_covariance h' hb.prior hr]
    apply hk.corrected_posSemidef hb.prior hr
  · rw [hprior]
    exact hb.prior

/-- The belief `b` is valid, and the covariances `q` and `r` of the noises that move the state and
enter the measurement are positive semidefinite. -/
structure ValidWith (b : Belief α n m) (q : Mat α n n) (r : Mat α m m) : Prop where
  belief : b.Valid
  processNoise : q.PosSemidef
  measurementNoise : r.PosSemidef

theorem initial_validWith :
  (initial : Belief α n m).ValidWith Mat.identity Mat.identity
  := by
  constructor
  · apply initial_valid
  · apply Mat.posDef_identity.posSemidef
  · apply Mat.posDef_identity.posSemidef

theorem ValidWith.update {b b' : Belief α n m} {q : Mat α n n} {r : Mat α m m}
    (hb : b.ValidWith q r) (hb' : b'.Valid) :
  b'.ValidWith q r
  := by
  constructor
  · exact hb'
  · exact hb.processNoise
  · exact hb.measurementNoise

end Belief

end Numerics
