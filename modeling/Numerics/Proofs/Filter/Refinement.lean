import Mathlib.Tactic.NormNum
import Numerics.Proofs.Difference.Affine
import Numerics.Proofs.Filter.Runs

/-!
# Extended filters of linear systems

A linear filter `f` makes an extended one, `f.extended`, whose functions move and measure the state
as the matrices of `f` do. A `FilterCall` asks both filters to predict or to correct, and says
whether the extended filter differences its Jacobian.

In exact arithmetic differences of linear functions are their matrices, so an extended filter whose
Jacobian is wrong goes astray only if it is asked to use it. As long as it is not, it `Follows` the
linear filter: a call leads both to the same belief, or both fail, and afterwards it still follows.
-/

namespace Numerics

variable {α : Type} {n m c : Nat}

/-! ### Calls -/

/-- What both kinds of filter are asked for. -/
inductive FilterCall (α : Type) (m : Nat) where
  | predict
  /-- The extended filter differences the Jacobian of the motion. -/
  | predictDifferenced
  | correct (z : Vec α m)
  /-- The extended filter differences the Jacobian of the observation. -/
  | correctDifferenced (z : Vec α m)

namespace FilterCall

/-- A call of a linear filter, which predicts under the control `u` if there is one. -/
def linear (u : Option (Vec α c)) : FilterCall α m → Kalman.Operation α n m c
  | .predict | .predictDifferenced => u.elim .predict .predictControlled
  | .correct z | .correctDifferenced z => .correct z

/-- A call of an extended filter. -/
def extended : FilterCall α m → ExtendedKalman.Operation α n m
  | .predict => .predict
  | .predictDifferenced => .predictDifferenced
  | .correct z => .correct z
  | .correctDifferenced z => .correctDifferenced z

end FilterCall

/-! ### The extended filter of a linear one -/

namespace Kalman

/-- How the state moves, under the control `u` if there is one. -/
def motion [RealScalar α] (f : Kalman α n m c) (u : Option (Vec α c)) (x : Vec α n) : Vec α n :=
  u.elim (f.transition.mulVec x) fun u => f.transition.mulVec x + f.control.mulVec u

/-- The extended filter that moves and measures the state as `f` does, with the Jacobians `ja` of
the motion and `jh` of the observation, and with the noise as it comes. -/
def extended [RealScalar α] (f : Kalman α n m c) (u : Option (Vec α c)) (ja : Mat α n n)
    (jh : Mat α m n) : ExtendedKalman α n m where
  belief := f.belief
  motion := f.motion u
  observation := f.observation.mulVec
  motionJacobian := ja
  observationJacobian := jh
  processCoupling := Mat.identity
  measurementCoupling := Mat.identity
  processNoise := f.processNoise
  measurementNoise := f.measurementNoise

/-- A new extended filter that is started and told the noises is the extended filter of the linear
one that is, where its Jacobians are the identity. -/
theorem extended_initial [RealScalar α] (a : Mat α n n) (h : Mat α m n) (b : Mat α n c)
    (q : Mat α n n) (r : Mat α m m) (x : Vec α n) (p : Mat α n n) (u : Option (Vec α c)) :
  (ExtendedKalman.initial (fun x => u.elim (a.mulVec x) fun u => a.mulVec x + b.mulVec u)
        h.mulVec).run [.resetWith x p, .setProcessNoise q, .setMeasurementNoise r]
    = (Kalman.initial.run [.resetWith x p, .setTransition a, .setObservation h, .setControl b,
        .setProcessNoise q, .setMeasurementNoise r]).extended u Mat.identity Mat.leading
  := rfl

variable [ExactScalar α]

theorem isAffine_motion (f : Kalman α n m c) (u : Option (Vec α c)) :
  IsAffine (f.motion u) f.transition
  := by
  cases u with
  | none => exact isAffine_mulVec f.transition
  | some u => exact (isAffine_mulVec f.transition).add_const _

theorem propagate_identity (p : Mat α n n) :
  Belief.propagate Mat.identity p = p
  := by
  rw [Belief.propagate, ← Mat.toMatrix_inj]
  simp

section

variable (f : Kalman α n m c) (u : Option (Vec α c)) (ja : Mat α n n) (jh : Mat α m n) (z : Vec α m)

/-- The prediction of the next state, under the control `u` if there is one. -/
def predictUnder : Kalman α n m c :=
  u.elim f.predict f.predictControlled

theorem perform_elim :
  f.perform (u.elim .predict .predictControlled) = .ok (f.predictUnder u)
  := by
  cases u <;> rfl

theorem predict_extended :
  (f.extended u f.transition jh).predict = (f.predictUnder u).extended u f.transition jh
  := by
  rw [ExtendedKalman.predict, extended, propagate_identity]
  cases u <;> rfl

theorem correct_extended :
  (f.extended u ja f.observation).correct z
    = (f.correct z).map fun g => g.extended u ja f.observation
  := by
  rw [ExtendedKalman.correct, correct, extended, propagate_identity]
  dsimp only
  cases f.belief.correct f.observation f.measurementNoise
    (f.observation.mulVec f.belief.xPrior) z <;> rfl

theorem predictDifferenced_extended (hstep : (cbrtEpsilon : α) ≠ 0) :
  (f.extended u ja jh).predictDifferenced = (f.extended u f.transition jh).predict
  := by
  rw [ExtendedKalman.predictDifferenced, extended, (f.isAffine_motion u).scaledJacobian _ hstep]
  rfl

theorem correctDifferenced_extended (hstep : (cbrtEpsilon : α) ≠ 0) :
  (f.extended u ja jh).correctDifferenced z = (f.extended u ja f.observation).correct z
  := by
  rw [ExtendedKalman.correctDifferenced, extended,
    (isAffine_mulVec f.observation).scaledJacobian _ hstep]
  rfl

/-- Neither a prediction nor a correction changes the matrices of the system. -/
theorem perform_linear_eq_ok {f g : Kalman α n m c} {u : Option (Vec α c)} {call : FilterCall α m}
    (h : f.perform (call.linear u) = .ok g) :
  g.transition = f.transition ∧ g.observation = f.observation
  := by
  have hpredict : ∀ {g}, f.perform (u.elim .predict .predictControlled) = .ok g →
      g.transition = f.transition ∧ g.observation = f.observation := by
    intro g h
    rw [perform_elim] at h
    cases h
    cases u <;> exact ⟨rfl, rfl⟩
  have hcorrect : ∀ {z g}, f.correct z = .ok g →
      g.transition = f.transition ∧ g.observation = f.observation := by
    intro z g h
    rw [correct, bind_eq_ok] at h
    obtain ⟨b, -, h⟩ := h
    cases h
    exact ⟨rfl, rfl⟩
  cases call with
  | predict => exact hpredict h
  | predictDifferenced => exact hpredict h
  | correct z => exact hcorrect h
  | correctDifferenced z => exact hcorrect h

end

end Kalman

/-! ### Following a linear filter -/

variable [ExactScalar α]

/-- The extended filter `g` is the one of the linear filter `f` under the control `u`, and each of
its Jacobians is right or is not used as it is by the `calls` to come. -/
structure Follows (u : Option (Vec α c)) (calls : List (FilterCall α m)) (f : Kalman α n m c)
    (g : ExtendedKalman α n m) : Prop where
  eq : g = f.extended u g.motionJacobian g.observationJacobian
  motion : g.motionJacobian = f.transition ∨ .predict ∉ calls
  observation : g.observationJacobian = f.observation ∨ ∀ z, .correct z ∉ calls

namespace Follows

variable {u : Option (Vec α c)} {call : FilterCall α m} {calls : List (FilterCall α m)}
  {f : Kalman α n m c} {g : ExtendedKalman α n m}

theorem tail (h : Follows u (call :: calls) f g) :
  Follows u calls f g
  := by
  use h.eq
  · exact h.motion.imp_right fun h hmem => h (List.mem_cons_of_mem _ hmem)
  · exact h.observation.imp_right fun h z hmem => h z (List.mem_cons_of_mem _ hmem)

theorem belief_eq (h : Follows u calls f g) :
  g.belief = f.belief
  := by
  rw [h.eq]
  rfl

/-- The next call leads to the extended filter of the one that it leads the linear filter to. -/
theorem perform (hstep : (cbrtEpsilon : α) ≠ 0) (h : Follows u (call :: calls) f g) :
  ∃ ja jh, g.perform call.extended = (f.perform (call.linear u)).map (fun f => f.extended u ja jh)
    ∧ (ja = f.transition ∨ .predict ∉ calls) ∧ (jh = f.observation ∨ ∀ z, .correct z ∉ calls)
  := by
  obtain ⟨-, hmotion', hobservation'⟩ := h.tail
  obtain ⟨heq, hmotion, hobservation⟩ := h
  generalize g.motionJacobian = ja at *
  generalize g.observationJacobian = jh at *
  subst heq
  cases call with
  | predict =>
    obtain rfl := hmotion.resolve_right fun h => h List.mem_cons_self
    use f.transition, jh
    rw [FilterCall.linear, f.perform_elim]
    exact ⟨congrArg Except.ok (f.predict_extended u jh), .inl rfl, hobservation'⟩
  | predictDifferenced =>
    use f.transition, jh
    rw [FilterCall.linear, f.perform_elim]
    have hpredict := (f.predictDifferenced_extended u ja jh hstep).trans (f.predict_extended u jh)
    exact ⟨congrArg Except.ok hpredict, .inl rfl, hobservation'⟩
  | correct z =>
    obtain rfl := hobservation.resolve_right fun h => h z List.mem_cons_self
    use ja, f.observation
    exact ⟨f.correct_extended u ja z, hmotion', .inl rfl⟩
  | correctDifferenced z =>
    use ja, f.observation
    refine ⟨?_, hmotion', .inl rfl⟩
    exact (f.correctDifferenced_extended u ja jh z hstep).trans (f.correct_extended u ja z)

/-- Both filters come to the same belief, or fail in the same way. -/
theorem outcome_eq (hstep : (cbrtEpsilon : α) ≠ 0) (h : Follows u (call :: calls) f g) :
  (g.perform call.extended).map (fun g => g.belief)
    = (f.perform (call.linear u)).map fun f => f.belief
  := by
  obtain ⟨ja, jh, hperform, -, -⟩ := h.perform hstep
  rw [hperform]
  cases f.perform (call.linear u) <;> rfl

/-- Whether the next call succeeds or not, the extended filter still follows. -/
theorem attempt (hstep : (cbrtEpsilon : α) ≠ 0) (h : Follows u (call :: calls) f g) :
  Follows u calls (attempt Kalman.perform f (call.linear u))
    (attempt ExtendedKalman.perform g call.extended)
  := by
  obtain ⟨ja, jh, hperform, hmotion, hobservation⟩ := h.perform hstep
  rw [Numerics.attempt, Numerics.attempt, hperform]
  cases hf : f.perform (call.linear u) with
  | error e => exact h.tail
  | ok f' =>
    obtain ⟨htransition, hobserve⟩ := Kalman.perform_linear_eq_ok hf
    rw [← htransition] at hmotion
    rw [← hobserve] at hobservation
    exact ⟨rfl, hmotion, hobservation⟩

/-- The extended filter follows a run. -/
theorem run (hstep : (cbrtEpsilon : α) ≠ 0) {before after : List (FilterCall α m)}
    (h : Follows u (before ++ after) f g) :
  Follows u after (f.run (before.map (FilterCall.linear u)))
    (g.run (before.map FilterCall.extended))
  := by
  induction before generalizing f g with
  | nil => exact h
  | cons call before ih => exact ih (h.attempt hstep)

end Follows

/-- Where differences are taken with a step that is not zero. Let an extended filter move and
measure the state as the matrices of the linear filter `f` say, under a fixed control or none, let
it have the noises and the belief of `f`, and let `calls` be anything that both are asked for. If
the extended filter has the right Jacobian of the motion, or all predictions difference it, and the
same for the observation, then at every point of the run both filters have the same belief, and the
next call leads both to the same belief or to the same error. -/
theorem extended_refines_linear (hstep : (cbrtEpsilon : α) ≠ 0) (f : Kalman α n m c)
    (u : Option (Vec α c)) (ja : Mat α n n) (jh : Mat α m n) (calls : List (FilterCall α m))
    (hmotion : ja = f.transition ∨ .predict ∉ calls)
    (hobservation : jh = f.observation ∨ ∀ z, .correct z ∉ calls) :
  ∀ before after, calls = before ++ after →
    let f' := f.run (before.map (FilterCall.linear u))
    let g' := (f.extended u ja jh).run (before.map FilterCall.extended)
    g'.belief = f'.belief
      ∧ ∀ call later, after = call :: later →
        (g'.perform call.extended).map (fun g => g.belief)
          = (f'.perform (call.linear u)).map fun f => f.belief
  := by
  rintro before after rfl
  have h : Follows u (before ++ after) f (f.extended u ja jh) := ⟨rfl, hmotion, hobservation⟩
  use (h.run hstep).belief_eq
  rintro call later rfl
  exact (h.run hstep).outcome_eq hstep

/-- A position that is moved by a velocity, which a control changes, and that is measured twice; the
Jacobians are never set. -/
theorem extended_refines_linear_tracking :
  let a : Mat ℚ 2 2 := Mat.ofFn ![![1, 1], ![0, 1]]
  let h : Mat ℚ 1 2 := Mat.ofFn ![![1, 0]]
  let b : Mat ℚ 2 1 := Mat.ofFn ![![1 / 2], ![1]]
  let f : Kalman ℚ 2 1 1 :=
    Kalman.initial.run [.resetWith 0 (Mat.scaledIdentity 4), .setTransition a, .setObservation h,
      .setControl b, .setProcessNoise (Mat.scaledIdentity 2), .setMeasurementNoise Mat.identity]
  let g : ExtendedKalman ℚ 2 1 :=
    (ExtendedKalman.initial (fun x => a.mulVec x + b.mulVec (Vec.fill 2)) h.mulVec).run
      [.resetWith 0 (Mat.scaledIdentity 4), .setProcessNoise (Mat.scaledIdentity 2),
        .setMeasurementNoise Mat.identity]
  let calls : List (FilterCall ℚ 1) :=
    [.predictDifferenced, .correctDifferenced (Vec.fill 3), .predictDifferenced,
      .correctDifferenced (Vec.fill 5)]
  (cbrtEpsilon : ℚ) ≠ 0 ∧ FilterCall.predict ∉ calls ∧ (∀ z, FilterCall.correct z ∉ calls)
    ∧ (g.run (calls.map FilterCall.extended)).belief
      = (f.run (calls.map (FilterCall.linear (some (Vec.fill 2))))).belief
  := by
  intro a h b f g calls
  have hstep : (cbrtEpsilon : ℚ) ≠ 0 := by decide +kernel
  have hmotion : FilterCall.predict ∉ calls := by simp [calls]
  have hobservation : ∀ z, FilterCall.correct z ∉ calls := by simp [calls]
  use hstep, hmotion, hobservation
  exact (extended_refines_linear hstep f (some (Vec.fill 2)) Mat.identity Mat.leading calls
    (.inr hmotion) (.inr hobservation) calls [] (List.append_nil calls).symm).1

end Numerics
