import Mathlib.Algebra.Order.Field.Basic
import Numerics.LeastSquares.LevenbergMarquardt
import Numerics.Proofs.Iteration
import Numerics.Proofs.Scalar.Exact

/-!
# Descent by damping

A fit by damped linearisation stores a point and the cost there. Between two points it may try many
steps, with more and more damping; a trial that is `rejected` changes nothing but the damping, and
one that is accepted replaces the point and the cost together. So the stored cost is that of the
stored point in every state that the fit comes to, and it falls from every state to the next one.

Whatever the arithmetic, and also where costs are no numbers, this takes nothing but that `<` is
transitive. It holds at each of the four ways in which a fit may end.
-/

namespace Numerics.LevenbergMarquardt

variable {α : Type} [RealScalar α] {n m : Nat} {r : Residuals α n m} {w : Vec α m} {x₀ : Vec α n}
  {options : Options α} {k : Nat} {s s' : State α n}

/-! ### Trials -/

section

variable (r : Residuals α n m) (w : Vec α m) (options : Options α)

/-- The step that the damped equations at the point of `s` suggest is `d`. -/
def Suggests (s : State α n) (damping : α) (d : Vec α n) : Prop :=
  ((NormalEquations.ofAll r s.x w options).damped damping).solve = .ok d

/-- A step `d` from the point of `s` is negligible beside it. -/
def Negligible (s : State α n) (d : Vec α n) : Prop :=
  d.norm < options.tolerance * (s.x.norm + options.tolerance)

/-- A trial from `s` with the given damping may end the search for a step, or ask for another
trial. -/
inductive Tried (s : State α n) (damping : α) : Round α (Trial α n) → Prop where
  /-- The step is negligible. -/
  | negligible {d : Vec α n} (hstep : Suggests r w options s damping d)
      (hshort : Negligible options s d) :
      Tried s damping (.done .negligible)
  /-- The step lowers the cost. -/
  | accepted {d : Vec α n} (hstep : Suggests r w options s damping d)
      (hlong : ¬ Negligible options s d) (hlower : r.cost w (s.x + d) < s.cost) :
      Tried s damping (.done (.accepted ⟨s.x + d, r.cost w (s.x + d),
        maxNum (damping * options.dampingDecrease) smallestDamping⟩))
  /-- The step does not lower the cost, and there can be no more damping. -/
  | exhausted {d : Vec α n} (hstep : Suggests r w options s damping d)
      (hlong : ¬ Negligible options s d) (hhigher : ¬ r.cost w (s.x + d) < s.cost)
      (hlarge : damping * options.dampingIncrease > largestDamping) :
      Tried s damping (.done .exhausted)
  /-- The step does not lower the cost. -/
  | rejected {d : Vec α n} (hstep : Suggests r w options s damping d)
      (hlong : ¬ Negligible options s d) (hhigher : ¬ r.cost w (s.x + d) < s.cost)
      (hlarge : ¬ damping * options.dampingIncrease > largestDamping) :
      Tried s damping (.next (damping * options.dampingIncrease))

/-- After `j` rejected trials from `s` the damping is `damping`. -/
inductive Rejected (s : State α n) : Nat → α → Prop where
  | none : Rejected s 0 s.damping
  | more {j : Nat} {damping raised : α} (h : Rejected s j damping)
      (htried : Tried r w options s damping (.next raised)) : Rejected s (j + 1) raised

end

theorem tryStep_eq_ok {damping : α} {t : Round α (Trial α n)}
    (h : tryStep r w options (.ofAll r s.x w options) s damping = .ok t) :
  Tried r w options s damping t
  := by
  rw [tryStep] at h
  obtain ⟨d, hstep, h⟩ := bind_eq_ok.mp h
  split at h
  case isTrue hshort =>
    cases h
    exact .negligible hstep hshort
  case isFalse hlong =>
    dsimp only at h
    split at h
    case isTrue hlower =>
      cases h
      exact .accepted hstep hlong hlower
    case isFalse hhigher =>
      split at h
      case isTrue hlarge =>
        cases h
        exact .exhausted hstep hlong hhigher hlarge
      case isFalse hlarge =>
        cases h
        exact .rejected hstep hlong hhigher hlarge

theorem Tried.tryStep_eq {damping : α} {t : Round α (Trial α n)}
    (h : Tried r w options s damping t) :
  tryStep r w options (.ofAll r s.x w options) s damping = .ok t
  := by
  rw [tryStep, bind_eq_ok]
  cases h with
  | negligible hstep hshort => exact ⟨_, hstep, if_pos hshort⟩
  | accepted hstep hlong hlower => exact ⟨_, hstep, (if_neg hlong).trans (if_pos hlower)⟩
  | exhausted hstep hlong hhigher hlarge =>
    exact ⟨_, hstep, (if_neg hlong).trans ((if_neg hhigher).trans (if_pos hlarge))⟩
  | rejected hstep hlong hhigher hlarge =>
    exact ⟨_, hstep, (if_neg hlong).trans ((if_neg hhigher).trans (if_neg hlarge))⟩

/-- The search for a step comes to a trial after as many rejected ones as trials. -/
theorem rejected_of_reached {j : Nat} {damping : α}
    (h : Reached (fun _ => tryStep r w options (.ofAll r s.x w options) s) s.damping j damping) :
  Rejected r w options s j damping
  := by
  induction h with
  | start => exact .none
  | next _ hnext ih => exact ih.more (tryStep_eq_ok hnext)

/-- A search for a step ends with a trial that comes after some rejected ones. -/
theorem findStep_eq_ok {t : Trial α n}
    (h : findStep r w options (.ofAll r s.x w options) s = .ok t) :
  ∃ j damping, Rejected r w options s j damping ∧ Tried r w options s damping (.done t)
  := by
  obtain ⟨j, damping, hreached, ⟨-, hlast⟩ | ⟨-, hlast⟩⟩ := exists_reached h
  · exact ⟨j, damping, rejected_of_reached hreached, tryStep_eq_ok hlast⟩
  · cases hlast

/-! ### Iterations -/

/-- A fit may end in four ways with the point and the cost of the state `s` after `k` iterations. -/
inductive Exit (r : Residuals α n m) (w : Vec α m) (options : Options α) (k : Nat)
    (s : State α n) : FitResult α n → Prop where
  /-- The right side of the normal equations is small. -/
  | flat (h : (NormalEquations.ofAll r s.x w options).rhs.norm < options.tolerance) :
      Exit r w options k s ⟨s.x, s.cost, k, true⟩
  /-- After some rejected trials, a step is negligible. -/
  | negligible {j : Nat} {damping : α} (hrejected : Rejected r w options s j damping)
      (h : Tried r w options s damping (.done .negligible)) :
      Exit r w options k s ⟨s.x, s.cost, k, true⟩
  /-- After some rejected trials, there can be no more damping. -/
  | exhausted {j : Nat} {damping : α} (hrejected : Rejected r w options s j damping)
      (h : Tried r w options s damping (.done .exhausted)) :
      Exit r w options k s ⟨s.x, s.cost, k, false⟩
  /-- The budget is spent. -/
  | spent (h : k = options.iterations) : Exit r w options k s ⟨s.x, s.cost, k, false⟩

theorem Exit.eq {result : FitResult α n} (h : Exit r w options k s result) :
  result.x = s.x ∧ result.cost = s.cost ∧ result.iterations = k
  := by
  cases h <;> exact ⟨rfl, rfl, rfl⟩

/-- An iteration goes on with a step that was accepted, or is an exit. -/
theorem step_eq_ok {t : Round (State α n) (FitResult α n)}
    (h : (step r w options k s).outcome = .ok t) :
  (∃ s' j damping, t = .next s' ∧ Rejected r w options s j damping
      ∧ Tried r w options s damping (.done (.accepted s')))
    ∨ ∃ result, t = .done result ∧ Exit r w options k s result
  := by
  rw [step] at h
  split at h
  case isTrue hflat =>
    cases h
    exact .inr ⟨_, rfl, .flat hflat⟩
  case isFalse =>
    obtain ⟨ending, hfound, h⟩ := Run.outcome_bind_eq_ok.mp h
    obtain ⟨j, damping, hrejected, htried⟩ := findStep_eq_ok hfound
    cases ending with
    | accepted s' =>
      cases h
      exact .inl ⟨s', j, damping, rfl, hrejected, htried⟩
    | negligible =>
      cases h
      exact .inr ⟨_, rfl, .negligible hrejected htried⟩
    | exhausted =>
      cases h
      exact .inr ⟨_, rfl, .exhausted hrejected htried⟩

/-- An iteration that goes on from `s` to `s'` has moved by a step that lowers the cost, after some
rejected trials, all of them from `s`. -/
theorem step_eq_next (h : (step r w options k s).outcome = .ok (.next s')) :
  ∃ j damping d, Rejected r w options s j damping
    ∧ Suggests r w options s damping d
    ∧ s'.x = s.x + d
    ∧ s'.cost = r.cost w s'.x
    ∧ s'.cost < s.cost
  := by
  obtain ⟨t, j, damping, ht, hrejected, htried⟩ | ⟨_, ht, -⟩ := step_eq_ok h
  · cases ht
    cases htried with
    | accepted hstep _ hlower => exact ⟨j, damping, _, hrejected, hstep, rfl, rfl, hlower⟩
  · cases ht

/-! ### The whole fit -/

/-- The fit from `x₀` comes to the state `s` after `k` iterations. -/
def Visited (r : Residuals α n m) (w : Vec α m) (x₀ : Vec α n) (options : Options α) (k : Nat)
    (s : State α n) : Prop :=
  Reached (fun k s => (step r w options k s).outcome) ⟨x₀, r.cost w x₀, options.damping⟩ k s

/-- The stored cost is the cost at the stored point. -/
theorem Visited.cost_eq (h : Visited r w x₀ options k s) :
  s.cost = r.cost w s.x
  := by
  cases h with
  | start => rfl
  | next _ hstep =>
    obtain ⟨-, -, -, -, -, -, hcost, -⟩ := step_eq_next hstep
    exact hcost

/-- The stored cost falls from every state to all later ones. -/
theorem Visited.cost_lt [IsTrans α (· < ·)] {k' : Nat} (hk : k < k')
    (h : Visited r w x₀ options k s) (h' : Visited r w x₀ options k' s') :
  s'.cost < s.cost
  := by
  apply Reached.rel_of_lt (R := fun s s' => s'.cost < s.cost) _ _ hk h h'
  · intro t t' t'' ht ht'
    exact IsTrans.trans _ _ _ ht' ht
  · intro i t t' _ hstep
    obtain ⟨-, -, -, -, -, -, -, hlower⟩ := step_eq_next hstep
    exact hlower

/-- A fit that has a result ends by an exit. -/
theorem exists_exit {result : FitResult α n} (h : (fit r w x₀ options).outcome = .ok result) :
  ∃ s, Visited r w x₀ options result.iterations s
    ∧ Exit r w options result.iterations s result
  := by
  obtain ⟨k, s, hs, ⟨-, hlast⟩ | ⟨hk, hlast⟩⟩ := Run.exists_reached h
  · obtain ⟨_, -, -, ht, -⟩ | ⟨_, ht, hexit⟩ := step_eq_ok hlast
    · cases ht
    · cases ht
      obtain ⟨-, -, rfl⟩ := hexit.eq
      exact ⟨s, hs, hexit⟩
  · cases hlast
    subst hk
    exact ⟨s, hs, .spent rfl⟩

/-- Whatever the arithmetic, as long as `<` is transitive, and whatever the residuals, also where
they are no numbers: let a fit by damped linearisation have a result. In every state that it came
to, the stored cost is that of the stored point. Every iteration that went on had rejected some
trials, each of them a step from the same point that did not lower the same cost, and then took a
step that does; so the stored cost fell from every state to all later ones. The result is the point
and the cost of the last state, at any of the four exits, and it is the start or better than it. -/
theorem fit_descends [IsTrans α (· < ·)] (r : Residuals α n m) (w : Vec α m) (x₀ : Vec α n)
    (options : Options α) {result : FitResult α n}
    (h : (fit r w x₀ options).outcome = .ok result) :
  (∀ k s, Visited r w x₀ options k s → s.cost = r.cost w s.x)
    ∧ (∀ k s s', Visited r w x₀ options k s → (step r w options k s).outcome = .ok (.next s') →
        ∃ j damping d, Rejected r w options s j damping
          ∧ Suggests r w options s damping d
          ∧ s'.x = s.x + d
          ∧ s'.cost = r.cost w s'.x
          ∧ s'.cost < s.cost)
    ∧ (∀ k k' s s', k < k' → Visited r w x₀ options k s → Visited r w x₀ options k' s' →
        s'.cost < s.cost)
    ∧ (∃ s, Visited r w x₀ options result.iterations s
        ∧ Exit r w options result.iterations s result
        ∧ result.x = s.x
        ∧ result.cost = s.cost)
    ∧ result.cost = r.cost w result.x
    ∧ (result.x = x₀ ∨ result.cost < r.cost w x₀)
  := by
  obtain ⟨s, hs, hexit⟩ := exists_exit h
  obtain ⟨hx, hcost, -⟩ := hexit.eq
  refine ⟨fun k s hs => hs.cost_eq, fun k s s' _ => step_eq_next,
    fun k k' s s' hk hs hs' => hs.cost_lt hk hs', ⟨s, hs, hexit, hx, hcost⟩, ?_, ?_⟩
  · rw [hx, hcost, hs.cost_eq]
  · rw [hx, hcost]
    obtain hk | hk := Nat.eq_zero_or_pos result.iterations
    · left
      rw [hk] at hs
      obtain rfl := hs.unique .start
      rfl
    · right
      have hstart : Visited r w x₀ options 0 ⟨x₀, r.cost w x₀, options.damping⟩ := .start
      exact hstart.cost_lt hk hs

/-- A line is fitted from below its zero, where the first steps would lead too far beyond it. -/
theorem fit_descends_line :
  let r : Residuals ℚ 1 1 := .ofFunction fun x => Vec.ofFn fun _ => x 0 / 4 - 1
  ∃ result, (fit r (Vec.fill 1) 0 (.standard (1 / 1000))).outcome = .ok result
    ∧ result.cost = r.cost (Vec.fill 1) result.x
    ∧ result.cost < r.cost (Vec.fill 1) 0
  := by
  intro r
  obtain ⟨result, hok, hmoved⟩ :
      ∃ result, (fit r (Vec.fill 1) 0 (.standard (1 / 1000))).outcome = .ok result
        ∧ 0 < result.x 0 := by
    apply exists_of_any
    decide +kernel
  obtain ⟨-, -, -, -, hcost, hlower⟩ := fit_descends r (Vec.fill 1) 0 (.standard (1 / 1000)) hok
  refine ⟨result, hok, hcost, hlower.resolve_left ?_⟩
  intro hstart
  rw [hstart, Vec.get_zero] at hmoved
  exact lt_irrefl 0 hmoved

end Numerics.LevenbergMarquardt
