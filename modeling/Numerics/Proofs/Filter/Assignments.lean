import Mathlib.Algebra.Order.Field.Basic
import Numerics.Proofs.Filter.Runs
import Numerics.Proofs.Scalar.Exact

/-!
# Filters updated in place

A filter may be kept in one place, where an operation assigns its fields one after another. Such a
program of `Assignments` has no way back: if it stops with an error, then what it assigned before
stays. `Kalman.assignments` and `ExtendedKalman.assignments` are the programs of the operations, and
`finish` runs them. Whatever the arithmetic, they end as the operations of the filters do, and an
operation that fails leaves every field as it was.

A prediction assigns what is expected before the next measurement, and a correction what is believed
after it, `Belief.revise`. Since a correction reads nothing of what it assigns, corrections do not
add up: each of them gives what it would have given without those before it.
-/

namespace Numerics

variable {α : Type} {n m c : Nat}

/-- Programs that assign the fields of a state one after another and may stop with an error. -/
abbrev Assignments (σ : Type) :=
  ExceptT FilterError (StateM σ)

/-- How a program ends that starts from the state `s`, and the state that it leaves. -/
def Assignments.finish {σ : Type} (program : Assignments σ Unit) (s : σ) :
    Except FilterError Unit × σ :=
  StateT.run (ExceptT.run program) s

namespace Assignments

variable {σ β : Type} {s : σ}

theorem finish_get_bind (rest : σ → Assignments σ Unit) :
  finish (get >>= rest) s = finish (rest s) s
  := rfl

end Assignments

/-! ### Beliefs -/

namespace Belief

/-- The belief `b` with the estimate `x`, the covariance `p` and the gain `k` after the measurement.
-/
def revise (b : Belief α n m) (x : Vec α n) (p : Mat α n n) (k : Mat α n m) : Belief α n m :=
  { b with x, p, gain := k }

variable [RealScalar α]

/-- A correction fails if elimination does not factor the covariance of the innovation, and
otherwise it revises the belief, with a covariance that is symmetric. -/
theorem correct_cases (b : Belief α n m) (h : Mat α m n) (r : Mat α m m) (predicted z : Vec α m) :
  (∃ e, Linear.LU.factor (propagate h b.pPrior + r) = .error e
      ∧ b.correct h r predicted z = .error .singularInnovation)
    ∨ ∃ s x p k, Linear.LU.factor (propagate h b.pPrior + r) = .ok s
      ∧ b.correct h r predicted z = .ok (b.revise x p k) ∧ p.transpose = p
  := by
  rw [correct, gainFor, Mat.inverse]
  cases Linear.LU.factor (propagate h b.pPrior + r) with
  | error e =>
    left
    exact ⟨e, rfl, rfl⟩
  | ok s =>
    right
    exact ⟨s, _, _, _, rfl, rfl, Mat.transpose_symmetrized _⟩

end Belief

variable [RealScalar α]

/-! ### All or nothing -/

/-- An operation on the state `s` with the given outcome, done by a program of assignments, is all
or nothing: it fails exactly if elimination does not factor the matrix `a`, and then the program
leaves the state as it was; otherwise the program leaves the state `revised x p k` for some
estimate, a symmetric covariance and a gain. -/
structure AllOrNothing {σ : Type} (program : Assignments σ Unit) (outcome : Except FilterError σ)
    (a : Mat α m m) (s : σ) (revised : Vec α n → Mat α n n → Mat α n m → σ) : Prop where
  fails_iff : outcome = .error .singularInnovation ↔ ∃ e, Linear.LU.factor a = .error e
  of_error : ∀ e, outcome = .error e → program.finish s = (.error e, s)
  of_ok : ∀ s', outcome = .ok s' →
    program.finish s = (.ok (), s') ∧ ∃ x p k, s' = revised x p k ∧ p.transpose = p

/-- The two ways in which an operation ends that is all or nothing. -/
theorem AllOrNothing.of_cases {σ ω : Type} {perform : σ → ω → Except FilterError σ} {s : σ} {op : ω}
    {program : Assignments σ Unit} {a : Mat α m m}
    {revised : Vec α n → Mat α n n → Mat α n m → σ}
    (hfinish : program.finish s = ((perform s op).map fun _ => (), attempt perform s op))
    (hcases : (∃ e, Linear.LU.factor a = .error e ∧ perform s op = .error .singularInnovation)
      ∨ ∃ l x p k, Linear.LU.factor a = .ok l ∧ perform s op = .ok (revised x p k)
        ∧ p.transpose = p) :
  AllOrNothing program (perform s op) a s revised
  := by
  rw [attempt] at hfinish
  rcases hcases with ⟨e, he, hperform⟩ | ⟨l, x, p, k, hl, hperform, hp⟩
  · rw [hperform] at hfinish ⊢
    constructor
    · exact ⟨fun _ => ⟨e, he⟩, fun _ => rfl⟩
    · rintro e' ⟨⟩
      exact hfinish
    · rintro s' ⟨⟩
  · rw [hperform] at hfinish ⊢
    constructor
    · rw [hl]
      constructor
      · rintro ⟨⟩
      · rintro ⟨e, ⟨⟩⟩
    · rintro e' ⟨⟩
    · rintro s' ⟨⟩
      exact ⟨hfinish, x, p, k, rfl, hp⟩

/-! ### Linear filters -/

namespace Kalman

/-- The assignments of a covariance, before and after the measurement. -/
def assignCovariance (p : Mat α n n) : Assignments (Kalman α n m c) Unit := do
  modify fun f => { f with belief.p := p }
  modify fun f => { f with belief.pPrior := p }

/-- The assignments of a restart. -/
def assignStart (x : Vec α n) (p : Mat α n n) : Assignments (Kalman α n m c) Unit := do
  modify fun f => { f with belief.x := x }
  modify fun f => { f with belief.xPrior := x }
  assignCovariance p

/-- The assignments of an operation. -/
def assignments : Operation α n m c → Assignments (Kalman α n m c) Unit
  | .reset x error => assignStart x (Mat.scaledIdentity error)
  | .resetWith x p => assignStart x p
  | .setCovariance p => assignCovariance p
  | .setTransition a => modify fun f => { f with transition := a }
  | .setObservation h => modify fun f => { f with observation := h }
  | .setControl b => modify fun f => { f with control := b }
  | .setProcessNoise q => modify fun f => { f with processNoise := q }
  | .setMeasurementNoise r => modify fun f => { f with measurementNoise := r }
  | .predict => do
    modify fun f => { f with belief.xPrior := f.transition.mulVec f.belief.x }
    modify fun f => { f with belief.pPrior := f.predictedCovariance }
  | .predictControlled u => do
    modify fun f =>
      { f with belief.xPrior := f.transition.mulVec f.belief.x + f.control.mulVec u }
    modify fun f => { f with belief.pPrior := f.predictedCovariance }
  | .correct z => do
    let f ← get
    let gain ← Belief.gainFor f.belief.pPrior f.observation
      (Belief.propagate f.observation f.belief.pPrior + f.measurementNoise)
    modify fun f => { f with belief.gain := gain }
    modify fun f =>
      { f with
        belief.x := f.belief.xPrior
          + f.belief.gain.mulVec (z - f.observation.mulVec f.belief.xPrior) }
    modify fun f =>
      { f with
        belief.p :=
          (((Mat.identity : Mat α n n) - f.belief.gain * f.observation)
            * f.belief.pPrior).symmetrized }

/-- The assignments of an operation end as the operation does, and leave the filter after it, or the
filter as it was if it fails. -/
theorem finish_assignments (f : Kalman α n m c) (op : Operation α n m c) :
  (assignments op).finish f = ((f.perform op).map fun _ => (), attempt perform f op)
  := by
  rw [attempt]
  cases op with
  | correct z =>
    rw [perform, correct, Belief.correct, assignments, Assignments.finish_get_bind]
    cases Belief.gainFor f.belief.pPrior f.observation
        (Belief.propagate f.observation f.belief.pPrior + f.measurementNoise) with
    | error e => rfl
    | ok k => rfl
  | _ => rfl

theorem correct_cases (f : Kalman α n m c) (z : Vec α m) :
  (∃ e, Linear.LU.factor (Belief.propagate f.observation f.belief.pPrior + f.measurementNoise)
        = .error e
      ∧ f.correct z = .error .singularInnovation)
    ∨ ∃ s x p k,
      Linear.LU.factor (Belief.propagate f.observation f.belief.pPrior + f.measurementNoise) = .ok s
      ∧ f.correct z = .ok { f with belief := f.belief.revise x p k } ∧ p.transpose = p
  := by
  rw [correct]
  rcases f.belief.correct_cases f.observation f.measurementNoise
    (f.observation.mulVec f.belief.xPrior) z with ⟨e, he, hb⟩ | ⟨s, x, p, k, hs, hb, hp⟩
  · left
    rw [hb]
    exact ⟨e, he, rfl⟩
  · right
    rw [hb]
    exact ⟨s, x, p, k, hs, rfl, hp⟩

/-- Corrections do not add up: the last one gives what it would have given alone. -/
theorem correct_run_correct (f : Kalman α n m c) (zs : List (Vec α m)) (z : Vec α m) :
  (f.run (zs.map .correct)).correct z = f.correct z
  := by
  apply perform_performAll perform (.correct z)
  intro op hop f f' hf'
  obtain ⟨z', -, rfl⟩ := List.mem_map.mp hop
  rcases f.correct_cases z' with ⟨e, -, hf⟩ | ⟨s, x, p, k, -, hf, -⟩
  · cases hf.symm.trans hf'
  · obtain rfl := Except.ok.inj (hf.symm.trans hf')
    rfl

end Kalman

/-! ### Extended filters -/

namespace ExtendedKalman

/-- The assignments of a covariance, before and after the measurement. -/
def assignCovariance (p : Mat α n n) : Assignments (ExtendedKalman α n m) Unit := do
  modify fun f => { f with belief.p := p }
  modify fun f => { f with belief.pPrior := p }

/-- The assignments of a restart. -/
def assignStart (x : Vec α n) (p : Mat α n n) : Assignments (ExtendedKalman α n m) Unit := do
  modify fun f => { f with belief.x := x }
  modify fun f => { f with belief.xPrior := x }
  assignCovariance p

/-- The assignments of a correction with the Jacobian `h` of the observation. -/
def assignCorrection (h : Mat α m n) (z : Vec α m) :
    Assignments (ExtendedKalman α n m) Unit := do
  let f ← get
  let gain ← Belief.gainFor f.belief.pPrior h
    (Belief.propagate h f.belief.pPrior
      + Belief.propagate f.measurementCoupling f.measurementNoise)
  modify fun f => { f with belief.gain := gain }
  modify fun f =>
    { f with
      belief.x := f.belief.xPrior
        + f.belief.gain.mulVec (z - f.observation f.belief.xPrior) }
  modify fun f =>
    { f with
      belief.p :=
        (((Mat.identity : Mat α n n) - f.belief.gain * h) * f.belief.pPrior).symmetrized }

/-- The assignments of a prediction. -/
def assignPrediction : Assignments (ExtendedKalman α n m) Unit := do
  modify fun f => { f with belief.xPrior := f.motion f.belief.x }
  modify fun f =>
    { f with
      belief.pPrior := Belief.propagate f.motionJacobian f.belief.p
        + Belief.propagate f.processCoupling f.processNoise }

/-- The assignments of an operation. -/
def assignments : Operation α n m → Assignments (ExtendedKalman α n m) Unit
  | .reset x error => assignStart x (Mat.scaledIdentity error)
  | .resetWith x p => assignStart x p
  | .setCovariance p => assignCovariance p
  | .setMotionJacobian a => modify fun f => { f with motionJacobian := a }
  | .setObservationJacobian h => modify fun f => { f with observationJacobian := h }
  | .setProcessCoupling w => modify fun f => { f with processCoupling := w }
  | .setMeasurementCoupling v => modify fun f => { f with measurementCoupling := v }
  | .setProcessNoise q => modify fun f => { f with processNoise := q }
  | .setMeasurementNoise r => modify fun f => { f with measurementNoise := r }
  | .predict => assignPrediction
  | .predictDifferenced => do
    modify fun f => { f with motionJacobian := scaledJacobian f.motion f.belief.x }
    assignPrediction
  | .correct z => do
    let f ← get
    assignCorrection f.observationJacobian z
  | .correctDifferenced z => do
    let f ← get
    let h := scaledJacobian f.observation f.belief.xPrior
    assignCorrection h z
    modify fun f => { f with observationJacobian := h }

/-- The assignments of an operation end as the operation does, and leave the filter after it, or the
filter as it was if it fails. -/
theorem finish_assignments (f : ExtendedKalman α n m) (op : Operation α n m) :
  (assignments op).finish f = ((f.perform op).map fun _ => (), attempt perform f op)
  := by
  rw [attempt]
  cases op with
  | correct z =>
    rw [perform, correct, Belief.correct, assignments, Assignments.finish_get_bind,
      assignCorrection, Assignments.finish_get_bind]
    cases Belief.gainFor f.belief.pPrior f.observationJacobian
        (Belief.propagate f.observationJacobian f.belief.pPrior
          + Belief.propagate f.measurementCoupling f.measurementNoise) with
    | error e => rfl
    | ok k => rfl
  | correctDifferenced z =>
    rw [perform, correctDifferenced, correct, Belief.correct, assignments,
      Assignments.finish_get_bind]
    dsimp only
    generalize scaledJacobian f.observation f.belief.xPrior = h
    rw [assignCorrection, bind_assoc, Assignments.finish_get_bind]
    cases Belief.gainFor f.belief.pPrior h
        (Belief.propagate h f.belief.pPrior
          + Belief.propagate f.measurementCoupling f.measurementNoise) with
    | error e => rfl
    | ok k => rfl
  | _ => rfl

/-- The covariance of the difference of a measurement from the predicted one, if the Jacobian of the
observation is `h`. -/
def innovationWith (f : ExtendedKalman α n m) (h : Mat α m n) : Mat α m m :=
  Belief.propagate h f.belief.pPrior + Belief.propagate f.measurementCoupling f.measurementNoise

theorem correct_cases (f : ExtendedKalman α n m) (z : Vec α m) :
  (∃ e, Linear.LU.factor (f.innovationWith f.observationJacobian) = .error e
      ∧ f.correct z = .error .singularInnovation)
    ∨ ∃ s x p k, Linear.LU.factor (f.innovationWith f.observationJacobian) = .ok s
      ∧ f.correct z = .ok { f with belief := f.belief.revise x p k } ∧ p.transpose = p
  := by
  rw [correct]
  rcases f.belief.correct_cases f.observationJacobian
      (Belief.propagate f.measurementCoupling f.measurementNoise) (f.observation f.belief.xPrior) z
    with ⟨e, he, hb⟩ | ⟨s, x, p, k, hs, hb, hp⟩
  · left
    rw [hb]
    exact ⟨e, he, rfl⟩
  · right
    rw [hb]
    exact ⟨s, x, p, k, hs, rfl, hp⟩

theorem correctDifferenced_cases (f : ExtendedKalman α n m) (z : Vec α m) :
  let h := scaledJacobian f.observation f.belief.xPrior
  (∃ e, Linear.LU.factor (f.innovationWith h) = .error e
      ∧ f.correctDifferenced z = .error .singularInnovation)
    ∨ ∃ s x p k, Linear.LU.factor (f.innovationWith h) = .ok s
      ∧ f.correctDifferenced z
        = .ok { f with belief := f.belief.revise x p k, observationJacobian := h }
      ∧ p.transpose = p
  := correct_cases
    { f with observationJacobian := scaledJacobian f.observation f.belief.xPrior } z

theorem correct_run_correct (f : ExtendedKalman α n m) (zs : List (Vec α m)) (z : Vec α m) :
  (f.run (zs.map .correct)).correct z = f.correct z
  := by
  apply perform_performAll perform (.correct z)
  intro op hop f f' hf'
  obtain ⟨z', -, rfl⟩ := List.mem_map.mp hop
  rcases f.correct_cases z' with ⟨e, -, hf⟩ | ⟨s, x, p, k, -, hf, -⟩
  · cases hf.symm.trans hf'
  · obtain rfl := Except.ok.inj (hf.symm.trans hf')
    rfl

theorem correctDifferenced_run_correctDifferenced (f : ExtendedKalman α n m) (zs : List (Vec α m))
    (z : Vec α m) :
  (f.run (zs.map .correctDifferenced)).correctDifferenced z = f.correctDifferenced z
  := by
  apply perform_performAll perform (.correctDifferenced z)
  intro op hop f f' hf'
  obtain ⟨z', -, rfl⟩ := List.mem_map.mp hop
  rcases f.correctDifferenced_cases z' with ⟨e, -, hf⟩ | ⟨s, x, p, k, -, hf, -⟩
  · cases hf.symm.trans hf'
  · obtain rfl := Except.ok.inj (hf.symm.trans hf')
    rfl

end ExtendedKalman

/-! ### Both filters -/

/-- Whatever the arithmetic, and in every state of a filter, linear or extended: an operation that
assigns its fields one after another ends as the operation does as a whole, and leaves the filter as
it was if it fails. A prediction changes the estimate and the covariance before the next
measurement, and the Jacobian of the motion if it differences that. A correction fails exactly if
elimination does not factor the covariance of the innovation. If it succeeds, it changes the
estimate, the covariance, which is symmetric then, and the gain after the measurement. One that
differences the Jacobian of the observation changes this as well, and comes to the same as to set
the Jacobian and then to correct. And after corrections of its kind, whether they succeeded or not,
a correction gives what it would have given alone. -/
theorem operations_atomic :
  (∀ f : Kalman α n m c,
      (∀ op, (Kalman.assignments op).finish f
        = ((f.perform op).map fun _ => (), attempt Kalman.perform f op))
      ∧ (∃ x p, f.predict = { f with belief := f.belief.predict x p })
      ∧ (∀ u, ∃ x p, f.predictControlled u = { f with belief := f.belief.predict x p })
      ∧ ∀ z,
        AllOrNothing (Kalman.assignments (.correct z)) (f.correct z)
          (Belief.propagate f.observation f.belief.pPrior + f.measurementNoise) f
          (fun x p k => { f with belief := f.belief.revise x p k })
        ∧ ∀ zs : List (Vec α m), (f.run (zs.map .correct)).correct z = f.correct z)
    ∧ ∀ f : ExtendedKalman α n m,
      let h := scaledJacobian f.observation f.belief.xPrior
      (∀ op, (ExtendedKalman.assignments op).finish f
        = ((f.perform op).map fun _ => (), attempt ExtendedKalman.perform f op))
      ∧ (∃ x p, f.predict = { f with belief := f.belief.predict x p })
      ∧ (∃ x p a, f.predictDifferenced
          = { f with belief := f.belief.predict x p, motionJacobian := a })
      ∧ ∀ z,
        AllOrNothing (ExtendedKalman.assignments (.correct z)) (f.correct z)
          (f.innovationWith f.observationJacobian) f
          (fun x p k => { f with belief := f.belief.revise x p k })
        ∧ AllOrNothing (ExtendedKalman.assignments (.correctDifferenced z)) (f.correctDifferenced z)
          (f.innovationWith h) f
          (fun x p k => { f with belief := f.belief.revise x p k, observationJacobian := h })
        ∧ (∀ g, f.correctDifferenced z = .ok g →
          [.setObservationJacobian h, .correct z].foldlM ExtendedKalman.perform f = .ok g)
        ∧ ∀ zs : List (Vec α m), (f.run (zs.map .correct)).correct z = f.correct z
          ∧ (f.run (zs.map .correctDifferenced)).correctDifferenced z = f.correctDifferenced z
  := by
  constructor
  · intro f
    refine ⟨f.finish_assignments, ⟨_, _, rfl⟩, fun _ => ⟨_, _, rfl⟩, ?_⟩
    intro z
    constructor
    · exact .of_cases (f.finish_assignments (.correct z)) (f.correct_cases z)
    · intro zs
      exact f.correct_run_correct zs z
  · intro f h
    refine ⟨f.finish_assignments, ⟨_, _, rfl⟩, ⟨_, _, _, rfl⟩, ?_⟩
    intro z
    refine ⟨?_, ?_, ?_, ?_⟩
    · exact .of_cases (f.finish_assignments (.correct z)) (f.correct_cases z)
    · exact .of_cases (f.finish_assignments (.correctDifferenced z)) (f.correctDifferenced_cases z)
    · intro g hg
      rw [List.foldlM_cons]
      exact bind_eq_ok.mpr ⟨_, rfl, bind_eq_ok.mpr ⟨g, hg, rfl⟩⟩
    · intro zs
      exact ⟨f.correct_run_correct zs z, f.correctDifferenced_run_correctDifferenced zs z⟩

/-- A filter that was corrected once, and then is asked to measure nothing without noise, and an
extended filter that measures the square of a position. -/
theorem operations_atomic_singular :
  let f : Kalman ℚ 2 1 0 :=
    Kalman.initial.run [.reset (Vec.fill 3) 4, .correct (Vec.fill 5), .setObservation 0,
      .setMeasurementNoise 0]
  let squared : Vec ℚ 2 → Vec ℚ 1 := fun x => Vec.fill (x 0 * x 0)
  let g : ExtendedKalman ℚ 2 1 :=
    (ExtendedKalman.initial id squared).run
      [.resetWith (Vec.fill 3) (Mat.scaledIdentity 1), .predictDifferenced]
  f.correct (Vec.fill 1) = .error .singularInnovation
    ∧ (Kalman.assignments (.correct (Vec.fill 1))).finish f = (.error .singularInnovation, f)
    ∧ ∃ g', g.correctDifferenced (Vec.fill 10) = .ok g'
      ∧ (ExtendedKalman.assignments (.correctDifferenced (Vec.fill 10))).finish g = (.ok (), g')
      ∧ [.setObservationJacobian (scaledJacobian squared g.belief.xPrior),
        .correct (Vec.fill 10)].foldlM ExtendedKalman.perform g = .ok g'
  := by
  intro f squared g
  obtain ⟨-, -, -, hlinear⟩ := operations_atomic.1 f
  obtain ⟨-, -, -, hextended⟩ := (operations_atomic (c := 0)).2 g
  have hfactor : (Linear.LU.factor
      (Belief.propagate f.observation f.belief.pPrior + f.measurementNoise)).isOk = false := by
    decide +kernel
  have hfails : f.correct (Vec.fill 1) = .error .singularInnovation := by
    apply (hlinear (Vec.fill 1)).1.fails_iff.mpr
    cases h : Linear.LU.factor
        (Belief.propagate f.observation f.belief.pPrior + f.measurementNoise) with
    | ok s =>
      rw [h] at hfactor
      cases hfactor
    | error e => use e
  have hok : (g.correctDifferenced (Vec.fill 10)).isOk = true := by decide +kernel
  obtain ⟨g', hg'⟩ := exists_of_isOk hok
  obtain ⟨-, hdifferenced, hset, -⟩ := hextended (Vec.fill 10)
  use hfails, (hlinear (Vec.fill 1)).1.of_error _ hfails, g', hg', (hdifferenced.of_ok g' hg').1
  exact hset g' hg'

end Numerics
