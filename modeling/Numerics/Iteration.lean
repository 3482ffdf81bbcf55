/-!
# Iteration on a budget

A numerical method repeats a step until the step finds a reason to end, or until a budget of steps
is spent. `iterate` is that loop in any monad, so that a step may fail or announce events; `Round`
is what a step leads to.
-/

namespace Numerics

universe u v

/-- What a step leads to: a new state in `σ`, or a result in `ρ`. -/
inductive Round (σ ρ : Type u) where
  /-- The iteration goes on from `s`. -/
  | next (s : σ)
  /-- The iteration ends with `r`. -/
  | done (r : ρ)

variable {m : Type u → Type v} [Monad m] {σ ρ : Type u}

/-- Repeat `step`, which is given the number of steps before it, at most `budget` times. If no step
ends the iteration, then `exhausted` makes a result of the last state. -/
def iterate (step : Nat → σ → m (Round σ ρ)) (exhausted : σ → m ρ) :
    (budget i : Nat) → σ → m ρ
  | 0, _, s => exhausted s
  | budget + 1, i, s => do
    match ← step i s with
    | .next s => iterate step exhausted budget (i + 1) s
    | .done r => pure r

theorem iterate_zero (step : Nat → σ → m (Round σ ρ)) (exhausted : σ → m ρ) (i : Nat) (s : σ) :
  iterate step exhausted 0 i s = exhausted s
  := rfl

theorem iterate_succ (step : Nat → σ → m (Round σ ρ)) (exhausted : σ → m ρ) (budget i : Nat)
    (s : σ) :
  iterate step exhausted (budget + 1) i s
    = step i s >>= fun
      | .next s => iterate step exhausted budget (i + 1) s
      | .done r => pure r
  := rfl

end Numerics
