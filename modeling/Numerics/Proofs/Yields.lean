import Numerics.Proofs.Iteration

/-!
# What results satisfy

A run `Yields` a property if its result has the property, provided that there is a result. What
runs in sequence yield follows from what each of them yields. What an iteration yields follows from
an invariant of its states: every step has to lead from a state with the invariant to another one,
or to a result with the property.
-/

namespace Numerics

universe u

/-- A step has led to a state that satisfies `P`, or to a result that satisfies `Q`. -/
def Round.Satisfies {σ ρ : Type u} (P : σ → Prop) (Q : ρ → Prop) : Round σ ρ → Prop
  | .next s => P s
  | .done r => Q r

section

variable {σ ρ : Type} {P : σ → Prop} {Q : ρ → Prop}

/-- What holds of the result of an iteration of steps that cannot fail. -/
theorem iterate_satisfies {step : Nat → σ → Round σ ρ} {exhausted : σ → ρ}
    (next : ∀ i s, P s → (step i s).Satisfies P Q) (last : ∀ s, P s → Q (exhausted s))
    (budget i : Nat) {s : σ} (h : P s) :
  Q (Id.run (iterate (m := Id) step exhausted budget i s))
  := by
  induction budget generalizing i s with
  | zero => apply last s h
  | succ budget ih =>
    have hstep := next i s h
    rw [iterate_succ]
    show Q (Id.run (match step i s with
      | .next s => iterate (m := Id) step exhausted budget (i + 1) s
      | .done r => r))
    cases hround : step i s with
    | next s' =>
      rw [hround] at hstep
      apply ih (i + 1) hstep
    | done r =>
      rw [hround] at hstep
      exact hstep

end

namespace Run

variable {α β γ σ ρ : Type} {r : Run α β}

/-- The result of `r`, if there is one, satisfies `P`. -/
structure Yields (r : Run α β) (P : β → Prop) : Prop where
  of_ok : ∀ b, r.outcome = .ok b → P b

theorem yields_pure {P : β → Prop} {b : β} (h : P b) :
  (pure b : Run α β).Yields P
  := by
  constructor
  rintro _ ⟨⟩
  exact h

theorem yields_fail {P : β → Prop} (e : SolverError) :
  (fail e : Run α β).Yields P
  := by
  constructor
  rintro _ ⟨⟩

/-- What a run yields may depend on what the run before it yields. -/
theorem Yields.bind {P : β → Prop} {Q : γ → Prop} {f : β → Run α γ} (h : r.Yields P)
    (hf : ∀ b, P b → (f b).Yields Q) :
  (r >>= f).Yields Q
  := by
  constructor
  intro c hc
  obtain ⟨b, hb, hc⟩ := outcome_bind_eq_ok.mp hc
  apply (hf b (h.of_ok b hb)).of_ok c hc

/-- What a run yields whatever the run before it yields. -/
theorem yields_bind {Q : γ → Prop} (r : Run α β) {f : β → Run α γ} (hf : ∀ b, (f b).Yields Q) :
  (r >>= f).Yields Q
  := by
  constructor
  intro c hc
  obtain ⟨b, -, hc⟩ := outcome_bind_eq_ok.mp hc
  apply (hf b).of_ok c hc

theorem yields_ite {P : β → Prop} {c : Prop} [Decidable c] {r r' : Run α β}
    (hpos : c → r.Yields P) (hneg : ¬ c → r'.Yields P) :
  (if c then r else r').Yields P
  := by
  split
  case isTrue h => apply hpos h
  case isFalse h => apply hneg h

/-- What an iteration yields. -/
theorem yields_iterate {P : σ → Prop} {Q : ρ → Prop} {step : Nat → σ → Run α (Round σ ρ)}
    {exhausted : σ → Run α ρ} (next : ∀ i s, P s → (step i s).Yields (Round.Satisfies P Q))
    (last : ∀ s, P s → (exhausted s).Yields Q) (budget i : Nat) {s : σ} (h : P s) :
  (iterate step exhausted budget i s).Yields Q
  := by
  induction budget generalizing i s with
  | zero => apply last s h
  | succ budget ih =>
    rw [iterate_succ]
    apply (next i s h).bind
    intro round hround
    cases round with
    | next s' => apply ih (i + 1) hround
    | done r => apply yields_pure (P := Q) hround

end Run

end Numerics
