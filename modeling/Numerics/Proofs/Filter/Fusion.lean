import Numerics.Proofs.Filter.Optimality

/-!
# Fusing measurements

In the terms of information a correction is a sum. The inverse of the covariance grows by the
`information` of the measurement, and its product with the estimate by what the measurement gives
`evidence` of; neither depends on what was known before. Between two measurements of one state there
is nothing to predict: the state stays where it is, and no noise moves it.

So two measurements that are fused in either order lead to the same estimate with the same
covariance, although the gains on the two ways have nothing in common.
-/

namespace Numerics

open Matrix

variable {α : Type} [ExactScalar α] {n m c : Nat}

namespace Mat

theorem eq_inv_of_mul_eq_identity {a b : Mat α n n} (h : a * b = identity) :
  a = b⁻¹
  := by
  rw [← toMatrix_inj, toMatrix_mul, toMatrix_identity] at h
  rw [← toMatrix_inj, toMatrix_inv, inv_eq_left_inv h]

end Mat

namespace Belief

variable {p : Mat α n n} {h : Mat α m n} {r : Mat α m m}

theorem information_posDef (hp : p.PosDef) (hr : r.PosDef) :
  (information p h r).PosDef
  := by
  have hmeasured := hr.inv.posSemidef.congruence h.transpose
  rw [Mat.transpose_transpose] at hmeasured
  constructor
  · rw [information, Mat.transpose_add, hp.inv.symmetric, hmeasured.symmetric]
  · intro v hv
    apply information_form_pos hp hr hv

end Belief

namespace Kalman

/-! ### Measurements -/

/-- A measurement of a state of `n` variables. -/
structure Measurement (α : Type) (n m : Nat) where
  /-- How the state is measured. -/
  observation : Mat α m n
  /-- The covariance of the noise of the measurement. -/
  noise : Mat α m m
  /-- What was measured. -/
  value : Vec α m

namespace Measurement

/-- The information in a measurement. -/
noncomputable def information (s : Measurement α n m) : Mat α n n :=
  s.observation.transpose * s.noise⁻¹ * s.observation

/-- What a measurement tells about the state, weighed by the information in it. -/
noncomputable def evidence (s : Measurement α n m) : Vec α n :=
  s.observation.transpose.mulVec (s.noise⁻¹.mulVec s.value)

/-- What is done with a filter to correct it by a measurement. -/
def operations (s : Measurement α n m) : List (Operation α n m c) :=
  [.setObservation s.observation, .setMeasurementNoise s.noise, .correct s.value]

end Measurement

/-- What is done with a filter to predict that the state stays as it is. -/
def stay : List (Operation α n m c) :=
  [.setTransition Mat.identity, .setProcessNoise 0, .predict]

/-- What is done with a filter to fuse the measurement `s`, and then `t`. -/
def fusion (s t : Measurement α n m) : List (Operation α n m c) :=
  s.operations ++ stay ++ t.operations

/-- The filter `f`, set up for the measurement `s`. -/
def facing (f : Kalman α n m c) (s : Measurement α n m) : Kalman α n m c :=
  { f with observation := s.observation, measurementNoise := s.noise }

variable {f g g' : Kalman α n m c} {s t : Measurement α n m} {a : Mat α n n} {e : Vec α n}

/-! ### What is learned -/

/-- The filter `g` believes what the filter `f` expects, corrected by the information `a` with the
evidence `e`. -/
structure Learned (f g : Kalman α n m c) (a : Mat α n n) (e : Vec α n) : Prop where
  posDef : g.belief.p.PosDef
  inv_eq : g.belief.p⁻¹ = f.belief.pPrior⁻¹ + a
  mulVec_eq : g.belief.p⁻¹.mulVec g.belief.x = f.belief.pPrior⁻¹.mulVec f.belief.xPrior + e

/-- The belief is determined by what was learned. -/
theorem Learned.unique (hg : Learned f g a e) (hg' : Learned f g' a e) :
  g.belief.x = g'.belief.x ∧ g.belief.p = g'.belief.p
  := by
  have hinv : g.belief.p⁻¹ = g'.belief.p⁻¹ := by
    rw [hg.inv_eq, hg'.inv_eq]
  have hmulVec : g.belief.p⁻¹.mulVec g.belief.x = g.belief.p⁻¹.mulVec g'.belief.x := by
    rw [hg.mulVec_eq, hinv, hg'.mulVec_eq]
  have hcancel := Mat.mul_inv_cancel hg.posDef.isUnit_det
  constructor
  · rw [← Mat.identity_mulVec g.belief.x, ← hcancel, Mat.mul_mulVec, hmulVec, ← Mat.mul_mulVec,
      hcancel, Mat.identity_mulVec]
  · rw [← Mat.mul_identity g.belief.p, ← Mat.inv_mul_cancel hg'.posDef.isUnit_det, ← hinv,
      ← Mat.mul_assoc, hcancel, Mat.identity_mul]

/-- A correction learns the information in the measurement. -/
theorem learned_of_correct (hp : f.belief.pPrior.PosDef) (hs : s.noise.PosDef)
    (h : (f.facing s).correct s.value = .ok g) :
  Learned f g s.information s.evidence
  := by
  have hinformation : (f.facing s).information = f.belief.pPrior⁻¹ + s.information := rfl
  obtain ⟨-, hright, hleft⟩ := correct_optimal (f.facing s) g s.value hp hs h
  have hinv : g.belief.p⁻¹ = f.belief.pPrior⁻¹ + s.information := by
    rw [← hinformation, Mat.eq_inv_of_mul_eq_identity hleft]
  constructor
  · rw [Mat.eq_inv_of_mul_eq_identity hright]
    apply (Belief.information_posDef hp hs).inv
  · exact hinv
  · have hbalance := mulVec_correct_sub (f := f.facing s) hp hs h
    rw [hinv]
    rw [← Vec.toFun_inj] at hbalance ⊢
    simp only [facing, Measurement.information, Measurement.evidence, Mat.toFun_mulVec,
      Mat.toMatrix_add, Mat.toMatrix_mul, Vec.toFun_add, Vec.toFun_sub, add_mulVec, mulVec_sub,
      ← mulVec_mulVec] at hbalance ⊢
    rw [sub_eq_sub_iff_add_eq_add] at hbalance
    rw [hbalance, add_comm]

/-! ### Fusions -/

theorem foldlM_operations (f : Kalman α n m c) (s : Measurement α n m) :
  s.operations.foldlM perform f = (f.facing s).correct s.value
  := by
  show (f.facing s).correct s.value >>= pure = _
  rw [bind_pure]

/-- A state that stays as it is stays as it was believed. -/
theorem foldlM_stay (h : stay.foldlM perform f = .ok g) :
  g.belief.xPrior = f.belief.x ∧ g.belief.pPrior = f.belief.p
  := by
  cases h
  constructor
  · apply Mat.identity_mulVec
  · rw [← Mat.toMatrix_inj]
    simp [predict, predictedCovariance, Belief.predict, Belief.propagate]

/-- A fusion learns the information in both measurements. -/
theorem learned_of_fusion (hp : f.belief.pPrior.PosDef) (hs : s.noise.PosDef)
    (ht : t.noise.PosDef) (h : (fusion s t).foldlM perform f = .ok g) :
  Learned f g (s.information + t.information) (s.evidence + t.evidence)
  := by
  rw [fusion, List.foldlM_append, List.foldlM_append] at h
  obtain ⟨f₂, h, hsecond⟩ := bind_eq_ok.mp h
  obtain ⟨f₁, hfirst, hstay⟩ := bind_eq_ok.mp h
  rw [foldlM_operations] at hfirst hsecond
  obtain ⟨hx, hprior⟩ := foldlM_stay hstay
  have hf₁ := learned_of_correct hp hs hfirst
  have hf₂ := learned_of_correct (hprior ▸ hf₁.posDef) ht hsecond
  constructor
  · exact hf₂.posDef
  · rw [hf₂.inv_eq, hprior, hf₁.inv_eq, ← Mat.toMatrix_inj]
    simp only [Mat.toMatrix_add]
    rw [add_assoc]
  · rw [hf₂.mulVec_eq, hprior, hx, hf₁.mulVec_eq, ← Vec.toFun_inj]
    simp only [Vec.toFun_add]
    rw [add_assoc]

/-- With exact scalars, a positive definite covariance of what is expected, and positive definite
covariances of the noises: if the fusion of two measurements succeeds in both orders, then both lead
to the same estimate and the same covariance. -/
theorem fusion_comm (f g g' : Kalman α n m c) (s t : Measurement α n m)
    (hp : f.belief.pPrior.PosDef) (hs : s.noise.PosDef) (ht : t.noise.PosDef)
    (h : (fusion s t).foldlM perform f = .ok g) (h' : (fusion t s).foldlM perform f = .ok g') :
  g.belief.x = g'.belief.x ∧ g.belief.p = g'.belief.p
  := by
  have hinformation : t.information + s.information = s.information + t.information := by
    rw [← Mat.toMatrix_inj, Mat.toMatrix_add, Mat.toMatrix_add, add_comm]
  have hevidence : t.evidence + s.evidence = s.evidence + t.evidence := by
    rw [← Vec.toFun_inj, Vec.toFun_add, Vec.toFun_add, add_comm]
  have hg := learned_of_fusion hp hs ht h
  have hg' := learned_of_fusion hp ht hs h'
  rw [hinformation, hevidence] at hg'
  apply hg.unique hg'

/-- The sum of two uncertain numbers is measured, and one of them. -/
theorem fusion_comm_sum :
  let f : Kalman ℚ 2 1 0 := initial.reset 0 4
  let s : Measurement ℚ 2 1 := ⟨Mat.ofFn ![![1, 1]], Mat.scaledIdentity 2, Vec.fill 5⟩
  let t : Measurement ℚ 2 1 := ⟨Mat.ofFn ![![1, 0]], Mat.scaledIdentity 1, Vec.fill 3⟩
  ∃ g g', (fusion s t).foldlM perform f = .ok g
    ∧ (fusion t s).foldlM perform f = .ok g'
    ∧ g.belief.x = g'.belief.x
    ∧ g.belief.p = g'.belief.p
  := by
  intro f s t
  have hok : ((fusion s t).foldlM perform f).isOk = true := by decide +kernel
  have hok' : ((fusion t s).foldlM perform f).isOk = true := by decide +kernel
  obtain ⟨g, hg⟩ := exists_of_isOk hok
  obtain ⟨g', hg'⟩ := exists_of_isOk hok'
  use g, g', hg, hg'
  exact fusion_comm f g g' s t (Mat.posDef_scaledIdentity four_pos)
    (Mat.posDef_scaledIdentity two_pos) (Mat.posDef_scaledIdentity one_pos) hg hg'

end Kalman

end Numerics
