import Mathlib.Algebra.Order.Field.Basic
import Numerics.LeastSquares.Robust
import Numerics.Minimize.Constrained
import Numerics.Proofs.Iteration
import Numerics.Proofs.Scalar.Exact
import Numerics.Proofs.Search.Root
import Numerics.Proofs.Steps

/-!
# What the last event says

Every solver announces its result last: whatever was announced on the way, by line searches and by
the rounds of the solver itself, the events of a call end with one that says how the call ended. It
has the level `debug` if the result is settled and `warn` otherwise, and the counts and the value
that it reports are those of the result.

There is one exception. A root search that comes to a value of zero ends there without an event, by
`findRoot_of_visited`, although it announces every other end.
-/

namespace Numerics

variable {α : Type} {n m p q : Nat}

/-! ### Closing events -/

/-- Who announces a result. -/
inductive Solver where
  /-- The search of an interval for a minimum. -/
  | interval
  /-- The search for a root. -/
  | root
  /-- Unconstrained minimization. -/
  | descent
  /-- Constrained minimization. -/
  | constrained
  /-- Least squares. -/
  | fit
  /-- Robust least squares. -/
  | robustFit

/-- The events by which a solver may announce a result with the given number of iterations and the
given value, converged or not. -/
def Solver.closings (options : Options α) (iterations : Nat) (value : α) :
    Solver → Bool → List (Event α)
  | interval, true => [.intervalSettled iterations]
  | interval, false => [.intervalUnsettled options.iterations]
  | root, true => [.rootSettled iterations]
  | root, false => [.rootUnsettled options.iterations]
  | descent, true => [.descentSettled options.descent iterations value]
  | descent, false => [.descentUnsettled options.descent iterations]
  | constrained, true => [.constrainedSettled iterations]
  | constrained, false =>
    [.constrainedFeasible iterations, .constrainedUnsettled options.penaltyRounds]
  | fit, true => [.fitSettled options.fitting iterations value]
  | fit, false => [.fitUnsettled options.fitting options.iterations]
  | robustFit, true => [.weightsSettled options.loss iterations]
  | robustFit, false => [.weightsUnsettled options.reweightRounds]

/-- The last of the events is one by which the solver announces the result, at the level that the
result calls for. -/
def Announced (options : Options α) (solver : Solver) (iterations : Nat) (value : α)
    (converged : Bool) (events : List (Event α)) : Prop :=
  ∃ e, events.getLast? = some e ∧ e ∈ solver.closings options iterations value converged
    ∧ e.level = if converged then .debug else .warn

section

variable {options : Options α} {solver : Solver} {iterations : Nat} {value : α} {converged : Bool}
  {events events' : List (Event α)}

theorem level_of_mem_closings {e : Event α}
    (h : e ∈ solver.closings options iterations value converged) :
  e.level = if converged then .debug else .warn
  := by
  cases solver <;> cases converged <;>
    simp only [Solver.closings, List.mem_cons, List.not_mem_nil, or_false] at h
  case constrained.false => obtain rfl | rfl := h <;> rfl
  all_goals
    subst h
    rfl

theorem announced_of_mem {e : Event α}
    (h : e ∈ solver.closings options iterations value converged) :
  Announced options solver iterations value converged [e]
  := ⟨e, rfl, h, level_of_mem_closings h⟩

/-- Events before an announcement do not matter. -/
theorem Announced.of_suffix (h : Announced options solver iterations value converged events)
    (hsuffix : events <:+ events') :
  Announced options solver iterations value converged events'
  := by
  obtain ⟨before, rfl⟩ := hsuffix
  obtain ⟨e, hlast, he⟩ := h
  refine ⟨e, ?_, he⟩
  rw [List.getLast?_append, hlast, Option.some_or]

/-- What follows a run announces the result, if it announces it after any result of the run. -/
theorem announced_bind {β γ : Type} {r : Run α β} {f : β → Run α γ} {c : γ}
    (h : (r >>= f).outcome = .ok c)
    (hf : ∀ b, (f b).outcome = .ok c →
      Announced options solver iterations value converged (f b).events) :
  Announced options solver iterations value converged (r >>= f).events
  := by
  obtain ⟨b, hb, hc⟩ := Run.outcome_bind_eq_ok.mp h
  rw [Run.events_bind hb]
  apply (hf b hc).of_suffix (List.suffix_append _ _)

/-- A result that is announced right after the run that finds it. -/
theorem announced_of_announce {β : Type} {r : Run α β} {event : β → Event α} {result : β}
    (h : (do
      let b ← r
      Run.announce (event b)
      return b : Run α β).outcome = .ok result)
    (hevent : event result ∈ solver.closings options iterations value converged) :
  Announced options solver iterations value converged
    (do
      let b ← r
      Run.announce (event b)
      return b : Run α β).events
  := by
  apply announced_bind h
  rintro b ⟨⟩
  apply announced_of_mem hevent

end

variable [RealScalar α]

/-! ### Searches -/

theorem minimizeBetween_announced {f : α → α} {a b : α} {options : Options α} {r : ScalarResult α}
    (h : (minimizeBetween f a b options).outcome = .ok r) :
  Announced options .interval r.iterations r.value r.converged
    (minimizeBetween f a b options).events
  := by
  cases h
  apply announced_of_mem
  cases (Brent.minimum f (.between a b) options).converged <;> apply List.mem_singleton_self _

namespace Root

/-- The root search from `x₀` comes to a value of zero within its budget. -/
def Vanishes (f : α → α) (x₀ : α) (options : Options α) : Prop :=
  ∃ k s, k < options.iterations ∧ Visited f x₀ options k s ∧ (s.value == 0) = true

variable {f : α → α} {x₀ : α} {options : Options α} {k : Nat} {s : Brent.Sample α}

/-- What a round of the root search leads to, and what it announces. -/
theorem step_eq_ok {r : Round (Brent.Sample α) (ScalarResult α)}
    (h : (step f options k s).outcome = .ok r) :
  ((s.value == 0) = true ∧ r = .done ⟨s.x, s.value, k, true⟩ ∧ (step f options k s).events = [])
    ∨ ((s.value == 0) = false ∧ ∃ t : Brent.Sample α,
      (r = .done ⟨t.x, t.value, k + 1, true⟩
          ∧ (step f options k s).events = [.rootSettled (k + 1)])
        ∨ r = .next t ∧ (step f options k s).events = [])
  := by
  rw [step] at h ⊢
  split at h
  case isTrue hzero =>
    left
    cases h
    rw [if_pos hzero]
    exact ⟨hzero, rfl, rfl⟩
  case isFalse hvalue =>
    right
    rw [if_neg hvalue]
    refine ⟨Bool.eq_false_iff.mpr hvalue, ?_⟩
    dsimp only at h ⊢
    split at h
    case isTrue hfinite =>
      rw [if_pos hfinite]
      split at h
      case isTrue hshort =>
        cases h
        rw [if_pos hshort]
        exact ⟨⟨_, _⟩, .inl ⟨rfl, rfl⟩⟩
      case isFalse hlong =>
        cases h
        rw [if_neg hlong]
        exact ⟨⟨_, _⟩, .inr ⟨rfl, rfl⟩⟩
    case isFalse => cases h

end Root

/-- A root search that comes to a value of zero ends there, and announces nothing. -/
theorem findRoot_of_visited {f : α → α} {x₀ : α} {options : Options α} {k : Nat}
    {s : Brent.Sample α} (hk : k < options.iterations) (h : Root.Visited f x₀ options k s)
    (hzero : (s.value == 0) = true) :
  findRoot f x₀ options = .result ⟨s.x, s.value, k, true⟩
  := by
  have hquiet : ∀ i s s', (Root.step f options i s).outcome = .ok (.next s') →
      (Root.step f options i s).events = [] := by
    intro i s s' hstep
    obtain ⟨-, hdone, -⟩ | ⟨-, t, ⟨hdone, -⟩ | ⟨-, hevents⟩⟩ := Root.step_eq_ok hstep
    · cases hdone
    · cases hdone
    · exact hevents
  obtain ⟨rest, hrest⟩ := Nat.exists_eq_add_of_lt hk
  rw [findRoot, hrest, Nat.add_assoc, Run.iterate_eq_of_quiet hquiet h, iterate_succ, Root.step,
    if_pos hzero]
  rfl

theorem findRoot_announced {f : α → α} {x₀ : α} {options : Options α} {r : ScalarResult α}
    (h : (findRoot f x₀ options).outcome = .ok r) (hvalues : ¬ Root.Vanishes f x₀ options) :
  Announced options .root r.iterations r.value r.converged (findRoot f x₀ options).events
  := by
  obtain ⟨k, s, hs, ⟨hk, hstep, hevents⟩ | ⟨hlast, hevents⟩⟩ :=
    Run.exists_reached_events Reached.start h
  · rw [Nat.zero_add] at hk
    obtain ⟨hzero, -, -⟩ | ⟨-, t, ⟨hdone, hsettled⟩ | ⟨hnext, -⟩⟩ := Root.step_eq_ok hstep
    · exact absurd ⟨k, s, hk, hs, hzero⟩ hvalues
    · cases hdone
      rw [hsettled] at hevents
      apply (announced_of_mem (List.mem_singleton_self _)).of_suffix hevents
    · cases hnext
  · cases hlast
    apply (announced_of_mem (List.mem_singleton_self _)).of_suffix hevents

/-! ### Minimization -/

theorem minimize_announced {f : Vec α n → α} {x₀ : Vec α n} {options : Options α}
    {r : Minimum α n} (h : (minimize f x₀ options).outcome = .ok r) :
  Announced options .descent r.iterations r.value r.converged (minimize f x₀ options).events
  := by
  apply announced_of_announce h
  cases r.converged <;> apply List.mem_singleton_self _

/-- A round of either penalty that finds the result announces it. -/
theorem round_announced {σ : Type} {inner : Run α (Minimum α n)} {event : Minimum α n → Event α}
    {next : Minimum α n → σ} {f : Vec α n → α} {c : Constraints α n p q} {options : Options α}
    {round : Nat} {r : Minimum α n}
    (h : (do
      let m ← inner
      Run.announce (event m)
      if c.violation m.x < options.tolerance then
        return .done (← endFeasible f m.x (round + 1) m.converged)
      else
        return .next (next m) : Run α (Round σ (Minimum α n))).outcome = .ok (.done r)) :
  Announced options .constrained r.iterations r.value r.converged
    (do
      let m ← inner
      Run.announce (event m)
      if c.violation m.x < options.tolerance then
        return .done (← endFeasible f m.x (round + 1) m.converged)
      else
        return .next (next m) : Run α (Round σ (Minimum α n))).events
  := by
  apply announced_bind h
  intro m h
  apply announced_bind h
  intro _ h
  split at h
  case isTrue hfeasible =>
    rw [if_pos hfeasible]
    cases h
    apply announced_of_mem
    cases m.converged
    case false => apply List.mem_cons_self
    case true => apply List.mem_singleton_self _
  case isFalse => cases h

omit [RealScalar α] in
/-- Rounds of which the last announces the result that it finds. A budget that is spent is announced
as well. -/
theorem rounds_announced {σ : Type} {step : Nat → σ → Run α (Round σ (Minimum α n))} {s₀ : σ}
    (point : σ → Vec α n) {f : Vec α n → α} {options : Options α} {r : Minimum α n}
    (hstep : ∀ k s r, (step k s).outcome = .ok (.done r) →
      Announced options .constrained r.iterations r.value r.converged (step k s).events)
    (h : (iterate step (fun s => endInfeasible f (point s) options)
      options.penaltyRounds 0 s₀).outcome = .ok r) :
  Announced options .constrained r.iterations r.value r.converged
    (iterate step (fun s => endInfeasible f (point s) options)
      options.penaltyRounds 0 s₀).events
  := by
  obtain ⟨k, s, -, ⟨-, hround, hevents⟩ | ⟨hlast, hevents⟩⟩ :=
    Run.exists_reached_events Reached.start h
  · apply (hstep k s r hround).of_suffix hevents
  · cases hlast
    apply Announced.of_suffix _ hevents
    apply announced_of_mem (List.mem_cons_of_mem _ (List.mem_singleton_self _))

/-- Without constraints, a constrained minimization is announced as a plain one. -/
theorem minimizeUnder_announced {f : Vec α n → α} {c : Constraints α n p q} {x₀ : Vec α n}
    {options : Options α} {r : Minimum α n}
    (h : (minimizeUnder f c x₀ options).outcome = .ok r) :
  Announced options (if p = 0 ∧ q = 0 then .descent else .constrained) r.iterations r.value
    r.converged (minimizeUnder f c x₀ options).events
  := by
  rw [minimizeUnder] at h ⊢
  split at h
  case isTrue hnone =>
    rw [if_pos hnone, if_pos hnone]
    apply minimize_announced h
  case isFalse hsome =>
    rw [if_neg hsome, if_neg hsome]
    cases hpenalty : options.penalty with
    | exterior =>
      simp only [hpenalty] at h
      apply rounds_announced Exterior.State.x _ h
      intro k s r hround
      apply round_announced hround
    | lagrangian =>
      simp only [hpenalty] at h
      apply rounds_announced Lagrangian.State.x _ h
      intro k s r hround
      apply round_announced hround

/-! ### Fits -/

theorem fit_announced {r : Residuals α n m} {x₀ : Vec α n} {options : Options α}
    {result : FitResult α n} (h : (fit r x₀ options).outcome = .ok result) :
  Announced options .fit result.iterations result.cost result.converged
    (fit r x₀ options).events
  := by
  apply announced_of_announce h
  cases result.converged <;> apply List.mem_singleton_self _

/-- A round of reweighting that finds the result announces it. -/
theorem Robust.step_announced {r : Residuals α n m} {options : Options α} {round : Nat}
    {s : State α n m} {result : FitResult α n}
    (h : (step r options round s).outcome = .ok (.done result)) :
  Announced options .robustFit result.iterations result.cost result.converged
    (step r options round s).events
  := by
  rw [step] at h ⊢
  apply announced_bind h
  intro inner h
  apply announced_bind h
  intro spread h
  apply announced_bind h
  intro _ h
  split at h
  case isTrue hsettled =>
    rw [if_pos hsettled]
    cases h
    apply announced_of_mem (List.mem_singleton_self _)
  case isFalse => cases h

/-- With the squared loss, a robust fit is announced as a plain one. -/
theorem robustFit_announced {r : Residuals α n m} {x₀ : Vec α n} {options : Options α}
    {result : FitResult α n} (h : (robustFit r x₀ options).outcome = .ok result) :
  Announced options (if options.loss = .squared then .fit else .robustFit) result.iterations
    result.cost result.converged (robustFit r x₀ options).events
  := by
  rw [robustFit] at h ⊢
  split at h
  case isTrue hsquared =>
    rw [if_pos hsquared, if_pos hsquared]
    apply fit_announced h
  case isFalse hloss =>
    rw [if_neg hloss, if_neg hloss]
    obtain ⟨k, s, -, ⟨-, hround, hevents⟩ | ⟨hlast, hevents⟩⟩ :=
      Run.exists_reached_events Reached.start h
    · apply (Robust.step_announced hround).of_suffix hevents
    · cases hlast
      apply (announced_of_mem (List.mem_singleton_self _)).of_suffix hevents

/-! ### All solvers -/

variable (α n m p q) in
/-- Whatever the arithmetic, the functions, the start and the options: if a solver has a result, the
last event of the call announces that result, as the solver's own, at the level `debug` if it
converged and `warn` otherwise. A constrained minimization without constraints is announced as the
plain minimization that it is, and a robust fit with the squared loss as a plain fit. A root search
does so unless it comes to a value of zero within its budget: then it has converged, and announces
nothing at all. -/
theorem results_announced :
  (∀ (f : α → α) (a b : α) (options : Options α) (r : ScalarResult α),
      (minimizeBetween f a b options).outcome = .ok r →
        Announced options .interval r.iterations r.value r.converged
          (minimizeBetween f a b options).events)
    ∧ (∀ (f : α → α) (x₀ : α) (options : Options α) (r : ScalarResult α),
      (findRoot f x₀ options).outcome = .ok r →
        (¬ Root.Vanishes f x₀ options →
            Announced options .root r.iterations r.value r.converged (findRoot f x₀ options).events)
          ∧ (Root.Vanishes f x₀ options →
            r.converged = true ∧ (findRoot f x₀ options).events = []))
    ∧ (∀ (f : Vec α n → α) (x₀ : Vec α n) (options : Options α) (r : Minimum α n),
      (minimize f x₀ options).outcome = .ok r →
        Announced options .descent r.iterations r.value r.converged (minimize f x₀ options).events)
    ∧ (∀ (f : Vec α n → α) (c : Constraints α n p q) (x₀ : Vec α n) (options : Options α)
        (r : Minimum α n),
      (minimizeUnder f c x₀ options).outcome = .ok r →
        Announced options (if p = 0 ∧ q = 0 then .descent else .constrained) r.iterations r.value
          r.converged (minimizeUnder f c x₀ options).events)
    ∧ (∀ (r : Residuals α n m) (x₀ : Vec α n) (options : Options α) (result : FitResult α n),
      (fit r x₀ options).outcome = .ok result →
        Announced options .fit result.iterations result.cost result.converged
          (fit r x₀ options).events)
    ∧ (∀ (r : Residuals α n m) (x₀ : Vec α n) (options : Options α) (result : FitResult α n),
      (robustFit r x₀ options).outcome = .ok result →
        Announced options (if options.loss = .squared then .fit else .robustFit) result.iterations
          result.cost result.converged (robustFit r x₀ options).events)
  := by
  refine ⟨?_, ?_, ?_, ?_, ?_, ?_⟩
  · intro f a b options r h
    apply minimizeBetween_announced h
  · intro f x₀ options r h
    refine ⟨findRoot_announced h, ?_⟩
    rintro ⟨k, s, hk, hs, hzero⟩
    rw [findRoot_of_visited hk hs hzero] at h ⊢
    cases h
    exact ⟨rfl, rfl⟩
  · intro f x₀ options r h
    apply minimize_announced h
  · intro f c x₀ options r h
    apply minimizeUnder_announced h
  · intro r x₀ options result h
    apply fit_announced h
  · intro r x₀ options result h
    apply robustFit_announced h

/-- A parabola is searched, minimized and fitted on a small budget, and every result announced. -/
theorem results_announced_parabola :
  let f : ℚ → ℚ := fun x => x * x - 2 * x
  let g : Vec ℚ 1 → ℚ := fun x => f (x 0)
  let c : Constraints ℚ 1 1 0 := ⟨Vec.ofFn fun _ x => x 0 - 1, 0⟩
  let r : Residuals ℚ 1 1 := .ofFunction fun x => Vec.ofFn fun _ => f (x 0)
  let options : Options ℚ :=
    { Options.standard (1 / 1000) with iterations := 1, penaltyRounds := 1, loss := .huber }
  (∃ result, (minimizeBetween f (-1) 2 options).outcome = .ok result
      ∧ Announced options .interval result.iterations result.value result.converged
        (minimizeBetween f (-1) 2 options).events)
    ∧ (∃ result, (findRoot f 3 options).outcome = .ok result
      ∧ ¬ Root.Vanishes f 3 options
      ∧ Announced options .root result.iterations result.value result.converged
        (findRoot f 3 options).events)
    ∧ (∃ result, (findRoot f 2 options).outcome = .ok result
      ∧ Root.Vanishes f 2 options
      ∧ result.converged = true ∧ (findRoot f 2 options).events = [])
    ∧ (∃ result, (minimize g 0 options).outcome = .ok result
      ∧ Announced options .descent result.iterations result.value result.converged
        (minimize g 0 options).events)
    ∧ (∃ result, (minimizeUnder g c 0 options).outcome = .ok result
      ∧ Announced options .constrained result.iterations result.value result.converged
        (minimizeUnder g c 0 options).events)
    ∧ (∃ result, (fit r 0 options).outcome = .ok result
      ∧ Announced options .fit result.iterations result.cost result.converged
        (fit r 0 options).events)
    ∧ ∃ result, (robustFit r 0 options).outcome = .ok result
      ∧ Announced options .robustFit result.iterations result.cost result.converged
        (robustFit r 0 options).events
  := by
  intro f g c r options
  obtain ⟨hbetween, hroot, hminimum, hunder, hfit, hrobust⟩ := results_announced ℚ 1 1 1 0
  have hbetween' : (minimizeBetween f (-1) 2 options).outcome.isOk = true := by decide +kernel
  have hroot' : (findRoot f 3 options).outcome.isOk = true := by decide +kernel
  have hzero' : (findRoot f 2 options).outcome.isOk = true := by decide +kernel
  have hminimum' : (minimize g 0 options).outcome.isOk = true := by decide +kernel
  have hunder' : (minimizeUnder g c 0 options).outcome.isOk = true := by decide +kernel
  have hfit' : (fit r 0 options).outcome.isOk = true := by decide +kernel
  have hrobust' : (robustFit r 0 options).outcome.isOk = true := by decide +kernel
  refine ⟨?_, ?_, ?_, ?_, ?_, ?_, ?_⟩
  · obtain ⟨result, hok⟩ := exists_of_isOk hbetween'
    exact ⟨result, hok, hbetween f (-1) 2 options result hok⟩
  · obtain ⟨result, hok⟩ := exists_of_isOk hroot'
    have hvalues : ¬ Root.Vanishes f 3 options := by
      rintro ⟨k, s, hk, hs, hzero⟩
      obtain rfl := Nat.lt_one_iff.mp hk
      cases hs
      revert hzero
      decide +kernel
    exact ⟨result, hok, hvalues, (hroot f 3 options result hok).1 hvalues⟩
  · obtain ⟨result, hok⟩ := exists_of_isOk hzero'
    have hvanishes : Root.Vanishes f 2 options :=
      ⟨0, ⟨2, f 2⟩, Nat.one_pos, .start, by decide +kernel⟩
    exact ⟨result, hok, hvanishes, (hroot f 2 options result hok).2 hvanishes⟩
  · obtain ⟨result, hok⟩ := exists_of_isOk hminimum'
    exact ⟨result, hok, hminimum g 0 options result hok⟩
  · obtain ⟨result, hok⟩ := exists_of_isOk hunder'
    exact ⟨result, hok, hunder g c 0 options result hok⟩
  · obtain ⟨result, hok⟩ := exists_of_isOk hfit'
    exact ⟨result, hok, hfit r 0 options result hok⟩
  · obtain ⟨result, hok⟩ := exists_of_isOk hrobust'
    exact ⟨result, hok, hrobust r 0 options result hok⟩

/-- The search for a root of `x * x - 4` from two converges without an event in double precision. -/
theorem findRoot_silent :
  let f : Float → Float := fun x => x * x - 4
  (∃ r, (findRoot f 2 .double).outcome = .ok r ∧ r.converged = true)
    ∧ (findRoot f 2 .double).events = []
  := by
  intro f
  have hzero : (f 2 == 0) = true := by decide +kernel
  rw [findRoot_of_visited (s := ⟨2, f 2⟩) (by decide) .start hzero]
  exact ⟨⟨_, rfl, rfl⟩, rfl⟩

end Numerics
