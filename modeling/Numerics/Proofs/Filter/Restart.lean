import Mathlib.Algebra.Order.Field.Basic
import Numerics.Proofs.Filter.Runs
import Numerics.Proofs.Scalar.Exact

/-!
# Starting a filter again

To start a filter again is to assign its estimate and its covariance, before and after the
measurement. The only part of its belief that stays is the gain of the last correction, and no
operation reads the gain. So two filters of the `SameSystem` that are started again alike are
`Indistinguishable` afterwards, whatever was done with them before: only who looks at the gain
before a correction has succeeded can tell them apart.
-/

namespace Numerics

variable {α : Type} {n m c : Nat}

/-! ### Filters that cannot be told apart -/

/-- The beliefs `b` and `b'` are the same, but for their gains. -/
structure Belief.SameEstimate (b b' : Belief α n m) : Prop where
  x : b.x = b'.x
  xPrior : b.xPrior = b'.xPrior
  p : b.p = b'.p
  pPrior : b.pPrior = b'.pPrior

/-- The operations `ops` succeed and fail alike on the filters `f` and `f'`, and lead to beliefs
that are the same but for their gains, and to the same filter once a correction has succeeded. Until
then both filters keep their gains. -/
structure Indistinguishable {σ ω : Type} (perform : σ → ω → Except FilterError σ)
    (belief : σ → Belief α n m) (Corrects : ω → Prop) (f f' : σ) (ops : List ω) : Prop where
  outcomes_eq : outcomes perform f ops = outcomes perform f' ops
  estimate : (belief (performAll perform f ops)).SameEstimate (belief (performAll perform f' ops))
  corrected : (∃ op ∈ performed perform f ops, Corrects op) →
    performAll perform f ops = performAll perform f' ops
  uncorrected : (∀ op ∈ performed perform f ops, ¬ Corrects op) →
    (belief (performAll perform f ops)).gain = (belief f).gain
      ∧ (belief (performAll perform f' ops)).gain = (belief f').gain

/-- Where no operation reads the gain, filters that differ in the gain only cannot be told apart. -/
theorem Indistinguishable.of_unread {σ ω : Type} {perform : σ → ω → Except FilterError σ}
    {belief : σ → Belief α n m} {Corrects : ω → Prop} {withGain : Mat α n m → σ → σ}
    (hunread : Unread perform withGain Corrects)
    (hbelief : ∀ k f, belief (withGain k f) = { belief f with gain := k })
    (hself : ∀ f, withGain (belief f).gain f = f) (f : σ) (k : Mat α n m) (ops : List ω) :
  Indistinguishable perform belief Corrects f (withGain k f) ops
  := by
  constructor
  · rw [hunread.outcomes_put]
  · by_cases hops : ∃ op ∈ performed perform f ops, Corrects op
    · rw [hunread.performAll_put_of_written hops]
      exact ⟨rfl, rfl, rfl, rfl⟩
    · rw [hunread.performAll_put_of_carried (by simpa using hops), hbelief]
      exact ⟨rfl, rfl, rfl, rfl⟩
  · intro hops
    rw [hunread.performAll_put_of_written hops]
  · intro hops
    have hkept : ∀ k, (belief (performAll perform (withGain k f) ops)).gain = k := by
      intro k
      rw [hunread.performAll_put_of_carried hops, hbelief]
    constructor
    · have hgain := hkept (belief f).gain
      rw [hself] at hgain
      exact hgain
    · rw [hkept, hbelief]

variable [RealScalar α]

/-! ### Linear filters -/

namespace Kalman

/-- The filters `f` and `f'` move and measure the state in the same way, with the same noises. -/
structure SameSystem (f f' : Kalman α n m c) : Prop where
  transition : f.transition = f'.transition
  observation : f.observation = f'.observation
  control : f.control = f'.control
  processNoise : f.processNoise = f'.processNoise
  measurementNoise : f.measurementNoise = f'.measurementNoise

/-- The filter `f` with the gain `k`. -/
def withGain (k : Mat α n m) (f : Kalman α n m c) : Kalman α n m c :=
  { f with belief.gain := k }

/-- The operation is a correction. -/
def Operation.Corrects : Operation α n m c → Prop
  | .correct _ => True
  | _ => False

/-- No operation reads the gain, and corrections write it. -/
theorem unread_gain :
  Unread (perform (α := α) (n := n) (m := m) (c := c)) withGain Operation.Corrects
  := by
  constructor
  · intro f k op hop
    cases op with
    | correct z => rfl
    | _ => cases hop
  · intro f k op hop
    cases op with
    | correct z => exact absurd trivial hop
    | _ => rfl

omit [RealScalar α] in
/-- After a restart, filters of the same system differ in the gain only. -/
theorem SameSystem.resetWith_eq {f f' : Kalman α n m c} (h : f.SameSystem f') (x : Vec α n)
    (p : Mat α n n) :
  f'.resetWith x p = (f.resetWith x p).withGain f'.belief.gain
  := by
  obtain ⟨b, a, h, u, q, r⟩ := f
  obtain ⟨b', a', h', u', q', r'⟩ := f'
  obtain ⟨rfl, rfl, rfl, rfl, rfl⟩ := h
  rfl

theorem SameSystem.indistinguishable {f f' : Kalman α n m c} (h : f.SameSystem f') (x : Vec α n)
    (p : Mat α n n) (ops : List (Operation α n m c)) :
  Indistinguishable perform belief Operation.Corrects (f.resetWith x p) (f'.resetWith x p) ops
  := by
  rw [h.resetWith_eq]
  apply Indistinguishable.of_unread unread_gain
  · intro k f
    rfl
  · intro f
    rfl

end Kalman

/-! ### Extended filters -/

namespace ExtendedKalman

/-- The filters `f` and `f'` move and measure the state in the same way, with the same noises, and
have the same Jacobians. -/
structure SameSystem (f f' : ExtendedKalman α n m) : Prop where
  motion : f.motion = f'.motion
  observation : f.observation = f'.observation
  motionJacobian : f.motionJacobian = f'.motionJacobian
  observationJacobian : f.observationJacobian = f'.observationJacobian
  processCoupling : f.processCoupling = f'.processCoupling
  measurementCoupling : f.measurementCoupling = f'.measurementCoupling
  processNoise : f.processNoise = f'.processNoise
  measurementNoise : f.measurementNoise = f'.measurementNoise

/-- The filter `f` with the gain `k`. -/
def withGain (k : Mat α n m) (f : ExtendedKalman α n m) : ExtendedKalman α n m :=
  { f with belief.gain := k }

/-- The operation is a correction. -/
def Operation.Corrects : Operation α n m → Prop
  | .correct _ => True
  | .correctDifferenced _ => True
  | _ => False

/-- No operation reads the gain, and corrections write it. -/
theorem unread_gain :
  Unread (perform (α := α) (n := n) (m := m)) withGain Operation.Corrects
  := by
  constructor
  · intro f k op hop
    cases op with
    | correct z => rfl
    | correctDifferenced z => rfl
    | _ => cases hop
  · intro f k op hop
    cases op with
    | correct z => exact absurd trivial hop
    | correctDifferenced z => exact absurd trivial hop
    | _ => rfl

omit [RealScalar α] in
/-- After a restart, filters of the same system differ in the gain only. -/
theorem SameSystem.resetWith_eq {f f' : ExtendedKalman α n m} (h : f.SameSystem f') (x : Vec α n)
    (p : Mat α n n) :
  f'.resetWith x p = (f.resetWith x p).withGain f'.belief.gain
  := by
  obtain ⟨b, fa, fh, ja, jh, w, v, q, r⟩ := f
  obtain ⟨b', fa', fh', ja', jh', w', v', q', r'⟩ := f'
  obtain ⟨rfl, rfl, rfl, rfl, rfl, rfl, rfl, rfl⟩ := h
  rfl

theorem SameSystem.indistinguishable {f f' : ExtendedKalman α n m} (h : f.SameSystem f')
    (x : Vec α n) (p : Mat α n n) (ops : List (Operation α n m)) :
  Indistinguishable perform belief Operation.Corrects (f.resetWith x p) (f'.resetWith x p) ops
  := by
  rw [h.resetWith_eq]
  apply Indistinguishable.of_unread unread_gain
  · intro k f
    rfl
  · intro f
    rfl

end ExtendedKalman

/-! ### Both filters -/

/-- Whatever the arithmetic, and whatever was done with two filters before, linear or extended: if
they are of the same system and are started again from the same estimate with the same covariance,
then any operations succeed and fail alike on both, and lead to the same estimates and covariances,
before and after the measurement. From the first correction on that succeeds the gains are the same
too, so the filters are, and until then each has the gain that it had before the restart. -/
theorem restart_forgets :
  (∀ f f' : Kalman α n m c, f.SameSystem f' →
      ∀ (x : Vec α n) (ops : List (Kalman.Operation α n m c)),
      (∀ error, Indistinguishable Kalman.perform Kalman.belief Kalman.Operation.Corrects
        (f.reset x error) (f'.reset x error) ops)
      ∧ ∀ p, Indistinguishable Kalman.perform Kalman.belief Kalman.Operation.Corrects
        (f.resetWith x p) (f'.resetWith x p) ops)
    ∧ ∀ f f' : ExtendedKalman α n m, f.SameSystem f' →
      ∀ (x : Vec α n) (ops : List (ExtendedKalman.Operation α n m)),
      (∀ error, Indistinguishable ExtendedKalman.perform ExtendedKalman.belief
        ExtendedKalman.Operation.Corrects (f.reset x error) (f'.reset x error) ops)
      ∧ ∀ p, Indistinguishable ExtendedKalman.perform ExtendedKalman.belief
        ExtendedKalman.Operation.Corrects (f.resetWith x p) (f'.resetWith x p) ops
  := by
  constructor
  · intro f f' h x ops
    constructor
    · intro error
      apply h.indistinguishable
    · intro p
      apply h.indistinguishable
  · intro f f' h x ops
    constructor
    · intro error
      apply h.indistinguishable
    · intro p
      apply h.indistinguishable

/-- A new filter and one that was corrected, both started again: after a prediction their gains are
still different, and after a correction they are the same filter. -/
theorem restart_forgets_corrected :
  let f : Kalman ℚ 2 1 0 := Kalman.initial
  let ops : List (Kalman.Operation ℚ 2 1 0) := [.predict, .correct (Vec.fill 1)]
  ∃ f', f.correct (Vec.fill 5) = .ok f'
    ∧ f.SameSystem f'
    ∧ ((f.reset 0 4).run [.predict]).belief.gain 0 0 = 0
    ∧ ((f'.reset 0 4).run [.predict]).belief.gain 0 0 = 1 / 2
    ∧ (∃ op ∈ performed Kalman.perform (f.reset 0 4) ops, op.Corrects)
    ∧ (f.reset 0 4).run ops = (f'.reset 0 4).run ops
  := by
  intro f ops
  obtain ⟨f', hf', hgain⟩ : ∃ f', f.correct (Vec.fill 5) = .ok f' ∧ f'.belief.gain 0 0 = 1 / 2 := by
    apply exists_of_any
    decide +kernel
  have hsystem : f.SameSystem f' := by
    obtain ⟨b, -, hb⟩ := bind_eq_ok.mp hf'
    obtain rfl := Except.ok.inj hb
    exact ⟨rfl, rfl, rfl, rfl, rfl⟩
  have hpredict : ∀ op ∈ performed Kalman.perform (f.reset 0 4) [.predict], ¬ op.Corrects := by
    intro op hop
    obtain rfl := List.mem_singleton.mp hop
    exact id
  have hok : (ops.foldlM Kalman.perform (f.reset 0 4)).isOk = true := by decide +kernel
  obtain ⟨g, hg⟩ := exists_of_isOk hok
  have hcorrects : ∃ op ∈ performed Kalman.perform (f.reset 0 4) ops, op.Corrects := by
    rw [(performed_of_foldlM hg).1]
    exact ⟨.correct (Vec.fill 1), by simp [ops], trivial⟩
  obtain ⟨hkept, hkept'⟩ := ((restart_forgets.1 f f' hsystem 0 [.predict]).1 4).uncorrected hpredict
  refine ⟨f', hf', hsystem, ?_, ?_, hcorrects, ?_⟩
  · exact congrArg (fun k => k 0 0) hkept
  · exact (congrArg (fun k => k 0 0) hkept').trans hgain
  · exact ((restart_forgets.1 f f' hsystem 0 ops).1 4).corrected hcorrects

end Numerics
