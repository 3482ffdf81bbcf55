import Numerics.Iteration
import Numerics.Proofs.Steps
import Numerics.Run

/-!
# How iterations end

A map of computations that keeps results and sequences, such as the one from a run to its
outcome, keeps iterations too, by `iterate_map`. So what an iteration does can be read off the
iteration of steps that may fail, whatever else the steps do.

The states that such an iteration passes through are `Reached`, and it has `Ended` with a result or
with an error only in one of three ways: a step finds a result, a step fails, or the budget is
spent. An invariant of the states is an induction on `Reached`; what it says about the end follows
by cases on `Ended`.

Two iterations with different states are compared by a relation of their states. They have the same
result if the steps from related states are two views of one step, by `iterate_eq_of_views`.
-/

namespace Numerics

universe u v w

/-! ### From one monad to another -/

/-- A map `φ` of computations that keeps results and sequences keeps iterations. -/
theorem iterate_map {m : Type u → Type v} {m' : Type u → Type w} [Monad m] [Monad m']
    {σ ρ : Type u} (φ : ∀ {β : Type u}, m β → m' β)
    (map_pure : ∀ {β : Type u} (b : β), φ (pure b) = pure b)
    (map_bind : ∀ {β γ : Type u} (x : m β) (f : β → m γ),
      φ (x >>= f) = φ x >>= fun b => φ (f b))
    (step : Nat → σ → m (Round σ ρ)) (exhausted : σ → m ρ) (budget i : Nat) (s : σ) :
  φ (iterate step exhausted budget i s)
    = iterate (fun i s => φ (step i s)) (fun s => φ (exhausted s)) budget i s
  := by
  induction budget generalizing i s with
  | zero => rfl
  | succ budget ih =>
    rw [iterate_succ, iterate_succ, map_bind]
    congr 1
    funext r
    cases r with
    | next s' => apply ih
    | done r => apply map_pure

/-- An iteration of steps that do nothing but step, as one in any monad. -/
theorem pure_iterate {m : Type u → Type v} [Monad m] [LawfulMonad m] {σ ρ : Type u}
    (step : Nat → σ → Round σ ρ) (exhausted : σ → ρ) (budget i : Nat) (s : σ) :
  (pure (Id.run (iterate (m := Id) step exhausted budget i s)) : m ρ)
    = iterate (fun i s => pure (step i s)) (fun s => pure (exhausted s)) budget i s
  := by
  apply iterate_map (m := Id) fun x => (pure x.run : m _)
  · intro _ _
    rfl
  · intro _ _ x f
    exact (pure_bind x.run fun b => pure (f b).run).symm

/-- An iteration of steps that cannot fail, as one of steps that may. -/
theorem ok_iterate {ε σ ρ : Type} (step : Nat → σ → Round σ ρ) (exhausted : σ → ρ)
    (budget i : Nat) (s : σ) :
  (.ok (Id.run (iterate (m := Id) step exhausted budget i s)) : Except ε ρ)
    = iterate (fun i s => .ok (step i s)) (fun s => .ok (exhausted s)) budget i s
  := pure_iterate (m := Except ε) step exhausted budget i s

/-! ### Two iterations -/

/-- The round `r` with `φ` applied to the state that it leads to, if it leads to one. -/
def Round.map {σ σ' ρ : Type u} (φ : σ → σ') : Round σ ρ → Round σ' ρ
  | .next s => .next (φ s)
  | .done r => .done r

/-- Iterations from related states have the same result if the steps from any two related states are
views of one step, under maps of its states to related ones. -/
theorem iterate_eq_of_views {m : Type u → Type v} [Monad m] [LawfulMonad m] {σ σ' ρ : Type u}
    {R : σ → σ' → Prop} {step : Nat → σ → m (Round σ ρ)} {step' : Nat → σ' → m (Round σ' ρ)}
    {exhausted : σ → m ρ} {exhausted' : σ' → m ρ}
    (hstep : ∀ i s s', R s s' → ∃ (τ : Type u) (x : m (Round τ ρ)) (φ : τ → σ) (φ' : τ → σ'),
      step i s = Round.map φ <$> x ∧ step' i s' = Round.map φ' <$> x ∧ ∀ t, R (φ t) (φ' t))
    (hlast : ∀ s s', R s s' → exhausted s = exhausted' s') (budget i : Nat) {s : σ} {s' : σ'}
    (h : R s s') :
  iterate step exhausted budget i s = iterate step' exhausted' budget i s'
  := by
  induction budget generalizing i s s' with
  | zero => apply hlast s s' h
  | succ budget ih =>
    obtain ⟨τ, x, φ, φ', hx, hx', hrelated⟩ := hstep i s s' h
    rw [iterate_succ, iterate_succ, hx, hx', bind_map_left, bind_map_left]
    apply bind_congr
    intro round
    cases round with
    | next t => apply ih (i + 1) (hrelated t)
    | done r => rfl

/-! ### States and ends -/

section

variable {ε σ ρ : Type} {step : Nat → σ → Except ε (Round σ ρ)} {exhausted : σ → Except ε ρ}
  {s₀ : σ}

/-- An iteration of `step` from `s₀` comes to `s` after `i` steps. -/
inductive Reached (step : Nat → σ → Except ε (Round σ ρ)) (s₀ : σ) : Nat → σ → Prop where
  | start : Reached step s₀ 0 s₀
  | next {i : Nat} {s s' : σ} (h : Reached step s₀ i s) (hstep : step i s = .ok (.next s')) :
      Reached step s₀ (i + 1) s'

/-- An iteration of `step` from `s₀` that may take `budget` steps ends with `x`. -/
inductive Ended (step : Nat → σ → Except ε (Round σ ρ)) (exhausted : σ → Except ε ρ) (s₀ : σ)
    (budget : Nat) : Except ε ρ → Prop where
  | done {i : Nat} {s : σ} {r : ρ} (hi : i < budget) (h : Reached step s₀ i s)
      (hstep : step i s = .ok (.done r)) : Ended step exhausted s₀ budget (.ok r)
  | error {i : Nat} {s : σ} {e : ε} (hi : i < budget) (h : Reached step s₀ i s)
      (hstep : step i s = .error e) : Ended step exhausted s₀ budget (.error e)
  | exhausted {s : σ} {x : Except ε ρ} (h : Reached step s₀ budget s) (hs : exhausted s = x) :
      Ended step exhausted s₀ budget x

/-- An iteration that goes on from a state that was reached ends as the whole does. -/
theorem Reached.ended {i : Nat} {s : σ} (h : Reached step s₀ i s) (budget : Nat) :
  Ended step exhausted s₀ (i + budget) (iterate step exhausted budget i s)
  := by
  induction budget generalizing i s with
  | zero => exact .exhausted h rfl
  | succ budget ih =>
    rw [iterate_succ]
    cases hstep : step i s with
    | error e =>
      apply Ended.error _ h hstep
      omega
    | ok r =>
      cases r with
      | next s' =>
        rw [← Nat.succ_add_eq_add_succ]
        apply ih (h.next hstep)
      | done r =>
        apply Ended.done _ h hstep
        omega

/-- An iteration goes on from a state that it comes to within its budget. -/
theorem Reached.iterate_eq {i : Nat} {s : σ} (h : Reached step s₀ i s) (budget : Nat) :
  iterate step exhausted (i + budget) 0 s₀ = iterate step exhausted budget i s
  := by
  induction h generalizing budget with
  | start => rw [Nat.zero_add]
  | next _ hstep ih =>
    rw [Nat.succ_add_eq_add_succ, ih, iterate_succ, hstep]
    rfl

/-- An iteration ends at a step within its budget that finds a result. -/
theorem Reached.iterate_done {i budget : Nat} {s : σ} {r : ρ} (h : Reached step s₀ i s)
    (hi : i < budget) (hstep : step i s = .ok (.done r)) :
  iterate step exhausted budget 0 s₀ = .ok r
  := by
  obtain ⟨rest, rfl⟩ := Nat.exists_eq_add_of_lt hi
  rw [Nat.add_assoc, h.iterate_eq, iterate_succ, hstep]
  rfl

/-- An iteration fails at a step within its budget that fails. -/
theorem Reached.iterate_error {i budget : Nat} {s : σ} {e : ε} (h : Reached step s₀ i s)
    (hi : i < budget) (hstep : step i s = .error e) :
  iterate step exhausted budget 0 s₀ = .error e
  := by
  obtain ⟨rest, rfl⟩ := Nat.exists_eq_add_of_lt hi
  rw [Nat.add_assoc, h.iterate_eq, iterate_succ, hstep]
  rfl

theorem iterate_ended (step : Nat → σ → Except ε (Round σ ρ)) (exhausted : σ → Except ε ρ) (s₀ : σ)
    (budget : Nat) :
  Ended step exhausted s₀ budget (iterate step exhausted budget 0 s₀)
  := by
  have h : Ended step exhausted s₀ (0 + budget) _ := Reached.start.ended budget
  rw [Nat.zero_add] at h
  exact h

/-- An iteration that never takes as many as `bound` steps does not notice a larger budget. -/
theorem iterate_eq_of_not_reached {bound budget : Nat} (h : ∀ s, ¬ Reached step s₀ bound s)
    (hbudget : bound ≤ budget) :
  iterate step exhausted budget 0 s₀ = iterate step exhausted bound 0 s₀
  := by
  have hend := iterate_ended step exhausted s₀ bound
  generalize iterate step exhausted bound 0 s₀ = outcome at hend ⊢
  cases hend with
  | done hi hs hstep => exact hs.iterate_done (Nat.lt_of_lt_of_le hi hbudget) hstep
  | error hi hs hstep => exact hs.iterate_error (Nat.lt_of_lt_of_le hi hbudget) hstep
  | exhausted hs _ => exact absurd hs (h _)

/-- An iteration that has a result found it in a step, or made it of the last state. -/
theorem exists_reached {budget : Nat} {r : ρ} (h : iterate step exhausted budget 0 s₀ = .ok r) :
  ∃ i s, Reached step s₀ i s
    ∧ (i < budget ∧ step i s = .ok (.done r) ∨ i = budget ∧ exhausted s = .ok r)
  := by
  have hend := iterate_ended step exhausted s₀ budget
  rw [h] at hend
  cases hend with
  | done hi hs hstep => exact ⟨_, _, hs, .inl ⟨hi, hstep⟩⟩
  | exhausted hs hlast => exact ⟨_, _, hs, .inr ⟨rfl, hlast⟩⟩

/-- An iteration that fails did so in a step, or in making its result of the last state. -/
theorem exists_reached_error {budget : Nat} {e : ε}
    (h : iterate step exhausted budget 0 s₀ = .error e) :
  ∃ i s, Reached step s₀ i s
    ∧ (i < budget ∧ step i s = .error e ∨ i = budget ∧ exhausted s = .error e)
  := by
  have hend := iterate_ended step exhausted s₀ budget
  rw [h] at hend
  cases hend with
  | error hi hs hstep => exact ⟨_, _, hs, .inl ⟨hi, hstep⟩⟩
  | exhausted hs hlast => exact ⟨_, _, hs, .inr ⟨rfl, hlast⟩⟩

/-- An iteration of steps that cannot fail has a result of this kind. -/
theorem exists_reached_id (step : Nat → σ → Round σ ρ) (exhausted : σ → ρ) (budget : Nat)
    (s₀ : σ) :
  ∃ i s, Reached (fun i s => (.ok (step i s) : Except ε (Round σ ρ))) s₀ i s
    ∧ (i < budget ∧ step i s = .done (Id.run (iterate (m := Id) step exhausted budget 0 s₀))
      ∨ i = budget ∧ exhausted s = Id.run (iterate (m := Id) step exhausted budget 0 s₀))
  := by
  obtain ⟨i, s, hs, hend⟩ :=
    exists_reached (ok_iterate (ε := ε) step exhausted budget 0 s₀).symm
  refine ⟨i, s, hs, hend.imp ?_ ?_⟩
  · rintro ⟨hi, hstep⟩
    exact ⟨hi, Except.ok.inj hstep⟩
  · rintro ⟨hi, hlast⟩
    exact ⟨hi, Except.ok.inj hlast⟩

/-- After a given number of steps there is one state only. -/
theorem Reached.unique {i : Nat} {s s' : σ} (h : Reached step s₀ i s)
    (h' : Reached step s₀ i s') :
  s = s'
  := by
  induction h generalizing s' with
  | start =>
    cases h'
    rfl
  | next _ hstep ih =>
    cases h' with
    | next hs hstep' =>
      obtain rfl := ih hs
      cases hstep.symm.trans hstep'
      rfl

/-- A transitive relation of every state to the next one relates every state to all later ones. -/
theorem Reached.rel_of_lt {R : σ → σ → Prop} (trans : ∀ s s' s'', R s s' → R s' s'' → R s s'')
    (next : ∀ i s s', Reached step s₀ i s → step i s = .ok (.next s') → R s s') {i j : Nat}
    {s s' : σ} (hij : i < j) (h : Reached step s₀ i s) (h' : Reached step s₀ j s') :
  R s s'
  := by
  induction h' with
  | start => exact absurd hij i.not_lt_zero
  | @next j t t' ht hstep ih =>
    have hlast := next j t t' ht hstep
    rcases Nat.lt_succ_iff_lt_or_eq.mp hij with hlt | rfl
    · exact trans _ _ _ (ih hlt) hlast
    · obtain rfl := h.unique ht
      exact hlast

end

/-! ### Runs -/

namespace Run

variable {α β γ σ ρ : Type}

theorem outcome_pure (b : β) :
  (pure b : Run α β).outcome = .ok b
  := rfl

theorem outcome_bind (r : Run α β) (f : β → Run α γ) :
  (r >>= f).outcome = r.outcome >>= fun b => (f b).outcome
  := by
  cases h : r.outcome with
  | error e => rw [bind_of_error h]; rfl
  | ok b => rw [bind_of_ok h]; rfl

theorem outcome_bind_eq_ok {r : Run α β} {f : β → Run α γ} {c : γ} :
  (r >>= f).outcome = .ok c ↔ ∃ b, r.outcome = .ok b ∧ (f b).outcome = .ok c
  := by
  rw [outcome_bind, bind_eq_ok]

/-- An announcement at the end does not change the outcome. -/
theorem outcome_announce (r : Run α β) (event : β → Event α) :
  (do
    let b ← r
    announce (event b)
    return b : Run α β).outcome = r.outcome
  := by
  rw [outcome_bind]
  cases r.outcome <;> rfl

theorem outcome_iterate (step : Nat → σ → Run α (Round σ ρ)) (exhausted : σ → Run α ρ)
    (budget i : Nat) (s : σ) :
  (iterate step exhausted budget i s).outcome
    = iterate (fun i s => (step i s).outcome) (fun s => (exhausted s).outcome) budget i s
  := iterate_map Run.outcome outcome_pure outcome_bind step exhausted budget i s

/-- An iteration whose first step ends it, if that step does not fail. -/
theorem outcome_iterate_of_done {step : Nat → σ → Run α (Round σ ρ)} {exhausted : σ → Run α ρ}
    {s₀ : σ} {first : Except SolverError ρ}
    (h : (step 0 s₀).outcome = first.map Round.done) {budget : Nat} (hbudget : 0 < budget) :
  (iterate step exhausted budget 0 s₀).outcome = first
  := by
  obtain ⟨rest, rfl⟩ := Nat.exists_eq_succ_of_ne_zero (Nat.ne_of_gt hbudget)
  rw [iterate_succ, outcome_bind, h]
  cases first <;> rfl

theorem exists_reached {step : Nat → σ → Run α (Round σ ρ)} {exhausted : σ → Run α ρ}
    {budget : Nat} {s₀ : σ} {r : ρ} (h : (iterate step exhausted budget 0 s₀).outcome = .ok r) :
  ∃ i s, Reached (fun i s => (step i s).outcome) s₀ i s
    ∧ (i < budget ∧ (step i s).outcome = .ok (.done r)
      ∨ i = budget ∧ (exhausted s).outcome = .ok r)
  := by
  rw [outcome_iterate] at h
  exact Numerics.exists_reached h

/-- Runs that go on in the same way from the result of `r`, if it has one, are the same. -/
theorem bind_congr_of_outcome {r : Run α β} {f g : β → Run α γ}
    (h : ∀ b, r.outcome = .ok b → f b = g b) :
  r >>= f = r >>= g
  := by
  cases hr : r.outcome with
  | error e => rw [bind_of_error hr, bind_of_error hr]
  | ok b => rw [bind_of_ok hr, bind_of_ok hr, h b hr]

theorem events_bind {r : Run α β} {b : β} (h : r.outcome = .ok b) (f : β → Run α γ) :
  (r >>= f).events = r.events ++ (f b).events
  := congrArg Run.events (bind_of_ok h f)

theorem mem_events_bind {r : Run α β} {f : β → Run α γ} {e : Event α} :
  e ∈ (r >>= f).events ↔ e ∈ r.events ∨ ∃ b, r.outcome = .ok b ∧ e ∈ (f b).events
  := by
  cases hr : r.outcome with
  | error e' => simp [bind_of_error hr]
  | ok b => simp [bind_of_ok hr]

section

variable {step : Nat → σ → Run α (Round σ ρ)} {exhausted : σ → Run α ρ} {s₀ s : σ} {i : Nat}

/-- The events of an iteration end with those of the step that finds its result, or with those of
making the result of the last state. -/
theorem exists_reached_events {budget : Nat} {r : ρ}
    (hs : Reached (fun i s => (step i s).outcome) s₀ i s)
    (h : (iterate step exhausted budget i s).outcome = .ok r) :
  ∃ k t, Reached (fun i s => (step i s).outcome) s₀ k t
    ∧ (k < i + budget ∧ (step k t).outcome = .ok (.done r)
        ∧ (step k t).events <:+ (iterate step exhausted budget i s).events
      ∨ (exhausted t).outcome = .ok r
        ∧ (exhausted t).events <:+ (iterate step exhausted budget i s).events)
  := by
  induction budget generalizing i s with
  | zero => exact ⟨i, s, hs, .inr ⟨h, List.suffix_rfl⟩⟩
  | succ budget ih =>
    rw [iterate_succ] at h ⊢
    obtain ⟨round, hround, h⟩ := outcome_bind_eq_ok.mp h
    rw [events_bind hround]
    cases round with
    | next s' =>
      obtain ⟨k, t, ht, ⟨hk, hstep, hevents⟩ | ⟨hlast, hevents⟩⟩ := ih (hs.next hround) h
      · refine ⟨k, t, ht, .inl ⟨?_, hstep, hevents.trans (List.suffix_append _ _)⟩⟩
        omega
      · exact ⟨k, t, ht, .inr ⟨hlast, hevents.trans (List.suffix_append _ _)⟩⟩
    | done r' =>
      cases h
      refine ⟨i, s, hs, .inl ⟨?_, hround, ?_⟩⟩
      · omega
      · exact ⟨[], (List.append_nil _).symm⟩

/-- An event of an iteration is one of a step within its budget, or of making its result of the last
state. -/
theorem exists_reached_event {budget : Nat} {e : Event α}
    (hs : Reached (fun i s => (step i s).outcome) s₀ i s)
    (h : e ∈ (iterate step exhausted budget i s).events) :
  ∃ k t, Reached (fun i s => (step i s).outcome) s₀ k t
    ∧ (k < i + budget ∧ e ∈ (step k t).events ∨ k = i + budget ∧ e ∈ (exhausted t).events)
  := by
  induction budget generalizing i s with
  | zero => exact ⟨i, s, hs, .inr ⟨rfl, h⟩⟩
  | succ budget ih =>
    rw [iterate_succ] at h
    obtain h | ⟨round, hround, h⟩ := mem_events_bind.mp h
    · refine ⟨i, s, hs, .inl ⟨?_, h⟩⟩
      omega
    · cases round with
      | next s' =>
        rw [← Nat.succ_add_eq_add_succ]
        apply ih (hs.next hround) h
      | done r => cases h

/-- Two iterations are the same run if their steps agree in all states that are reached. -/
theorem iterate_congr {step' : Nat → σ → Run α (Round σ ρ)}
    (hs : Reached (fun i s => (step i s).outcome) s₀ i s)
    (hstep : ∀ i s, Reached (fun i s => (step i s).outcome) s₀ i s → step i s = step' i s)
    (budget : Nat) :
  iterate step exhausted budget i s = iterate step' exhausted budget i s
  := by
  induction budget generalizing i s with
  | zero => rfl
  | succ budget ih =>
    rw [iterate_succ, iterate_succ, ← hstep i s hs]
    apply bind_congr_of_outcome
    intro round hround
    cases round with
    | next s' => apply ih (hs.next hround)
    | done r => rfl

/-- An iteration announces nothing if its steps announce nothing in the states that are reached. -/
theorem events_iterate_eq_nil (hs : Reached (fun i s => (step i s).outcome) s₀ i s)
    (hstep : ∀ i s, Reached (fun i s => (step i s).outcome) s₀ i s → (step i s).events = [])
    (hlast : ∀ s, (exhausted s).events = []) (budget : Nat) :
  (iterate step exhausted budget i s).events = []
  := by
  induction budget generalizing i s with
  | zero => apply hlast
  | succ budget ih =>
    rw [iterate_succ]
    cases hround : (step i s).outcome with
    | error e =>
      rw [bind_of_error hround]
      exact hstep i s hs
    | ok round =>
      rw [events_bind hround, hstep i s hs, List.nil_append]
      cases round with
      | next s' => apply ih (hs.next hround)
      | done r => rfl

/-- An iteration whose steps announce nothing where they go on is, from its start, the same run as
from a state that it comes to within its budget. -/
theorem iterate_eq_of_quiet
    (hquiet : ∀ i s s', (step i s).outcome = .ok (.next s') → (step i s).events = [])
    (h : Reached (fun i s => (step i s).outcome) s₀ i s) (budget : Nat) :
  iterate step exhausted (i + budget) 0 s₀ = iterate step exhausted budget i s
  := by
  induction h generalizing budget with
  | start => rw [Nat.zero_add]
  | next _ hstep ih =>
    rw [Nat.succ_add_eq_add_succ, ih, iterate_succ, bind_of_ok hstep, hquiet _ _ _ hstep]
    rfl

end

end Run

end Numerics
