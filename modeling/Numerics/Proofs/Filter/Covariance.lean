import Numerics.Proofs.Filter.Correction
import Numerics.Proofs.Filter.Runs

/-!
# Covariances along runs

An operation is `Admissible` if the variance that it takes is not negative and the covariances that
it takes are positive semidefinite; everything else that it takes is arbitrary. A filter is `Valid`
if its covariances and those of its noises are positive semidefinite. With exact scalars every
admissible operation keeps a filter valid, so every run of such operations from a new filter does.
-/

namespace Numerics

variable {α : Type} [ExactScalar α] {n m c : Nat}

/-! ### Linear filters -/

namespace Kalman

/-- The data that an operation takes for covariances are covariances. -/
def Operation.Admissible : Operation α n m c → Prop
  | .reset _ error => 0 ≤ error
  | .resetWith _ p => p.PosSemidef
  | .setCovariance p => p.PosSemidef
  | .setProcessNoise q => q.PosSemidef
  | .setMeasurementNoise r => r.PosSemidef
  | _ => True

/-- The covariances of the belief of `f` and of its noises are positive semidefinite. -/
def Valid (f : Kalman α n m c) : Prop :=
  f.belief.ValidWith f.processNoise f.measurementNoise

theorem initial_valid :
  (initial : Kalman α n m c).Valid
  := Belief.initial_validWith

variable {f g : Kalman α n m c}

theorem Valid.predictedCovariance (hf : f.Valid) :
  f.predictedCovariance.PosSemidef
  := (hf.belief.posterior.congruence _).add hf.processNoise

theorem correct_eq_ok {z : Vec α m} (h : f.correct z = .ok g) :
  f.belief.correct f.observation f.measurementNoise (f.observation.mulVec f.belief.xPrior) z
      = .ok g.belief
    ∧ g = { f with belief := g.belief }
  := by
  obtain ⟨b, hb, hg⟩ := bind_eq_ok.mp h
  obtain rfl := Except.ok.inj hg
  use hb

theorem Valid.correct (hf : f.Valid) {z : Vec α m} (h : f.correct z = .ok g) :
  g.Valid
  := by
  obtain ⟨hb, hg⟩ := correct_eq_ok h
  rw [hg]
  apply hf.update (hf.belief.correct hf.measurementNoise hb)

theorem Valid.form_correct_le (hf : f.Valid) {z : Vec α m} (h : f.correct z = .ok g) (v : Vec α n) :
  g.belief.p.form v ≤ g.belief.pPrior.form v
  := by
  obtain ⟨hb, -⟩ := correct_eq_ok h
  apply Belief.form_correct_le hb hf.belief.prior hf.measurementNoise

/-- Every admissible operation keeps a filter valid. -/
theorem Valid.perform (hf : f.Valid) {op : Operation α n m c} (hop : op.Admissible)
    (h : f.perform op = .ok g) :
  g.Valid
  := by
  cases op with
  | reset x error =>
    cases h
    apply hf.update (Belief.withCovariance_valid _ (Mat.posSemidef_scaledIdentity hop))
  | resetWith x p =>
    cases h
    apply hf.update (Belief.withCovariance_valid _ hop)
  | setCovariance p =>
    cases h
    apply hf.update (Belief.withCovariance_valid _ hop)
  | setTransition a =>
    cases h
    exact hf
  | setObservation a =>
    cases h
    exact hf
  | setControl b =>
    cases h
    exact hf
  | setProcessNoise q =>
    cases h
    exact ⟨hf.belief, hop, hf.measurementNoise⟩
  | setMeasurementNoise r =>
    cases h
    exact ⟨hf.belief, hf.processNoise, hop⟩
  | predict =>
    cases h
    apply hf.update (hf.belief.predict _ hf.predictedCovariance)
  | predictControlled u =>
    cases h
    apply hf.update (hf.belief.predict _ hf.predictedCovariance)
  | correct z => apply hf.correct h

/-- Every run of admissible operations keeps a filter valid. -/
theorem Valid.run (hf : f.Valid) {ops : List (Operation α n m c)}
    (hops : ∀ op ∈ ops, op.Admissible) :
  (f.run ops).Valid
  := by
  apply performAll_induction (P := Valid) _ ops f hf hops
  intro f op g hf hop h
  apply hf.perform hop h

end Kalman

/-! ### Extended filters -/

namespace ExtendedKalman

/-- The data that an operation takes for covariances are covariances. -/
def Operation.Admissible : Operation α n m → Prop
  | .reset _ error => 0 ≤ error
  | .resetWith _ p => p.PosSemidef
  | .setCovariance p => p.PosSemidef
  | .setProcessNoise q => q.PosSemidef
  | .setMeasurementNoise r => r.PosSemidef
  | _ => True

/-- The covariances of the belief of `f` and of its noises are positive semidefinite. -/
def Valid (f : ExtendedKalman α n m) : Prop :=
  f.belief.ValidWith f.processNoise f.measurementNoise

theorem initial_valid (motion : Vec α n → Vec α n) (observation : Vec α n → Vec α m) :
  (initial motion observation).Valid
  := Belief.initial_validWith

variable {f g : ExtendedKalman α n m}

theorem Valid.withMotionJacobian (hf : f.Valid) (a : Mat α n n) :
  { f with motionJacobian := a }.Valid
  := hf

theorem Valid.predict (hf : f.Valid) :
  f.predict.Valid
  := by
  apply hf.update (hf.belief.predict _ _)
  apply (hf.belief.posterior.congruence _).add (hf.processNoise.congruence _)

/-- The covariance of the noise, as it enters the measurement. -/
theorem Valid.coupledNoise (hf : f.Valid) :
  (Belief.propagate f.measurementCoupling f.measurementNoise).PosSemidef
  := hf.measurementNoise.congruence _

theorem correct_eq_ok {z : Vec α m} (h : f.correct z = .ok g) :
  f.belief.correct f.observationJacobian
      (Belief.propagate f.measurementCoupling f.measurementNoise)
      (f.observation f.belief.xPrior) z
      = .ok g.belief
    ∧ g = { f with belief := g.belief }
  := by
  obtain ⟨b, hb, hg⟩ := bind_eq_ok.mp h
  obtain rfl := Except.ok.inj hg
  use hb

theorem Valid.correct (hf : f.Valid) {z : Vec α m} (h : f.correct z = .ok g) :
  g.Valid
  := by
  obtain ⟨hb, hg⟩ := correct_eq_ok h
  rw [hg]
  apply hf.update (hf.belief.correct hf.coupledNoise hb)

theorem Valid.form_correct_le (hf : f.Valid) {z : Vec α m} (h : f.correct z = .ok g) (v : Vec α n) :
  g.belief.p.form v ≤ g.belief.pPrior.form v
  := by
  obtain ⟨hb, -⟩ := correct_eq_ok h
  apply Belief.form_correct_le hb hf.belief.prior hf.coupledNoise

theorem Valid.withObservationJacobian (hf : f.Valid) (h : Mat α m n) :
  { f with observationJacobian := h }.Valid
  := hf

theorem Valid.correctDifferenced (hf : f.Valid) {z : Vec α m} (h : f.correctDifferenced z = .ok g) :
  g.Valid
  := (hf.withObservationJacobian _).correct h

theorem Valid.form_correctDifferenced_le (hf : f.Valid) {z : Vec α m}
    (h : f.correctDifferenced z = .ok g) (v : Vec α n) :
  g.belief.p.form v ≤ g.belief.pPrior.form v
  := (hf.withObservationJacobian _).form_correct_le h v

/-- Every admissible operation keeps a filter valid. -/
theorem Valid.perform (hf : f.Valid) {op : Operation α n m} (hop : op.Admissible)
    (h : f.perform op = .ok g) :
  g.Valid
  := by
  cases op with
  | reset x error =>
    cases h
    apply hf.update (Belief.withCovariance_valid _ (Mat.posSemidef_scaledIdentity hop))
  | resetWith x p =>
    cases h
    apply hf.update (Belief.withCovariance_valid _ hop)
  | setCovariance p =>
    cases h
    apply hf.update (Belief.withCovariance_valid _ hop)
  | setMotionJacobian a =>
    cases h
    exact hf
  | setObservationJacobian a =>
    cases h
    exact hf
  | setProcessCoupling w =>
    cases h
    exact hf
  | setMeasurementCoupling v =>
    cases h
    exact hf
  | setProcessNoise q =>
    cases h
    exact ⟨hf.belief, hop, hf.measurementNoise⟩
  | setMeasurementNoise r =>
    cases h
    exact ⟨hf.belief, hf.processNoise, hop⟩
  | predict =>
    cases h
    apply hf.predict
  | predictDifferenced =>
    cases h
    apply (hf.withMotionJacobian _).predict
  | correct z => apply hf.correct h
  | correctDifferenced z => apply hf.correctDifferenced h

/-- Every run of admissible operations keeps a filter valid. -/
theorem Valid.run (hf : f.Valid) {ops : List (Operation α n m)}
    (hops : ∀ op ∈ ops, op.Admissible) :
  (f.run ops).Valid
  := by
  apply performAll_induction (P := Valid) _ ops f hf hops
  intro f op g hf hop h
  apply hf.perform hop h

end ExtendedKalman

/-! ### Both filters -/

/-- After every run of admissible operations from a new filter, linear or extended, its covariances
before and after the measurement are positive semidefinite; and a correction that succeeds there
adds uncertainty in no direction. -/
theorem covariances_along_runs :
  (∀ ops : List (Kalman.Operation α n m c), (∀ op ∈ ops, op.Admissible) →
      (Kalman.initial.run ops).belief.p.PosSemidef
        ∧ (Kalman.initial.run ops).belief.pPrior.PosSemidef
        ∧ ∀ z g, (Kalman.initial.run ops).correct z = .ok g →
            ∀ v, g.belief.p.form v ≤ g.belief.pPrior.form v)
    ∧ ∀ (motion : Vec α n → Vec α n) (observation : Vec α n → Vec α m)
        (ops : List (ExtendedKalman.Operation α n m)), (∀ op ∈ ops, op.Admissible) →
      ((ExtendedKalman.initial motion observation).run ops).belief.p.PosSemidef
        ∧ ((ExtendedKalman.initial motion observation).run ops).belief.pPrior.PosSemidef
        ∧ (∀ z g, ((ExtendedKalman.initial motion observation).run ops).correct z = .ok g →
            ∀ v, g.belief.p.form v ≤ g.belief.pPrior.form v)
        ∧ ∀ z g,
            ((ExtendedKalman.initial motion observation).run ops).correctDifferenced z = .ok g →
            ∀ v, g.belief.p.form v ≤ g.belief.pPrior.form v
  := by
  constructor
  · intro ops hops
    have hf := Kalman.initial_valid.run hops
    use hf.belief.posterior, hf.belief.prior
    intro z g h
    apply hf.form_correct_le h
  · intro motion observation ops hops
    have hf := (ExtendedKalman.initial_valid motion observation).run hops
    use hf.belief.posterior, hf.belief.prior
    constructor
    · intro z g h
      apply hf.form_correct_le h
    · intro z g h
      apply hf.form_correctDifferenced_le h

/-- A position that is measured after it was moved by a velocity, and the square of a position that
is measured after a prediction. -/
theorem covariances_along_runs_tracking :
  let ops : List (Kalman.Operation ℚ 2 1 1) :=
    [.reset 0 4, .setTransition (Mat.ofFn ![![1, 1], ![0, 1]]),
      .setProcessNoise (Mat.scaledIdentity 2), .predictControlled (Vec.fill 1)]
  let squared : Vec ℚ 2 → Vec ℚ 1 := fun x => Vec.fill (x 0 * x 0)
  let ops' : List (ExtendedKalman.Operation ℚ 2 1) :=
    [.resetWith (Vec.fill 3) (Mat.scaledIdentity 1), .predictDifferenced]
  (∃ g, (Kalman.initial.run ops).correct (Vec.fill 5) = .ok g
      ∧ ∀ v, g.belief.p.form v ≤ g.belief.pPrior.form v)
    ∧ ∃ g, ((ExtendedKalman.initial id squared).run ops').correctDifferenced (Vec.fill 10) = .ok g
      ∧ ∀ v, g.belief.p.form v ≤ g.belief.pPrior.form v
  := by
  intro ops squared ops'
  constructor
  · have hops : ∀ op ∈ ops, op.Admissible := by
      simp only [ops, List.forall_mem_cons]
      use zero_le_four, trivial, Mat.posSemidef_scaledIdentity zero_le_two, trivial
      simp
    have hok : ((Kalman.initial.run ops).correct (Vec.fill 5)).isOk = true := by
      decide +kernel
    obtain ⟨g, hg⟩ := exists_of_isOk hok
    use g, hg, (covariances_along_runs.1 ops hops).2.2 _ g hg
  · have hops : ∀ op ∈ ops', op.Admissible := by
      simp only [ops', List.forall_mem_cons]
      use Mat.posSemidef_scaledIdentity zero_le_one, trivial
      simp
    have hok : (((ExtendedKalman.initial id squared).run ops').correctDifferenced
        (Vec.fill 10)).isOk = true := by
      decide +kernel
    obtain ⟨g, hg⟩ := exists_of_isOk hok
    use g, hg, (covariances_along_runs (c := 0).2 id squared ops' hops).2.2.2 _ g hg

end Numerics
