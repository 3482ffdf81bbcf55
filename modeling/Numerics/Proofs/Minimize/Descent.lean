import Numerics.Minimize.ConjugateGradient
import Numerics.Proofs.Iteration

/-!
# Where conjugate gradients end

The gradient that a descent along conjugate directions stores is the gradient at the point that it
stores, in every state that it comes to. So a descent that ends at a minimum, as far as it can tell,
ends where the gradient is shorter than the tolerance. This holds in any arithmetic.
-/

namespace Numerics.ConjugateGradient

variable {α : Type} [RealScalar α] {n : Nat} {f : Vec α n → α} {grad : Vec α n → Vec α n}
  {x₀ : Vec α n} {options : Options α} {s : State α n} {i : Nat}

/-- What a round of the descent may lead to: an end where the gradient is short, an end where the
line search stalls, a restart in the steepest direction, or a move to where the line search ends.
-/
theorem step_eq_ok {r : Round (State α n) (Minimum α n)}
    (h : (step f grad options i s).outcome = .ok r) :
  (s.slope.norm < options.tolerance ∧ r = .done ⟨s.x, s.value, i, true⟩)
    ∨ r = .done ⟨s.x, s.value, i + 1, false⟩
    ∨ r = .next { s with direction := -s.slope, steepest := true }
    ∨ ∃ line, (minimizeRay (along f s) options).outcome = .ok line
      ∧ r = .next (move grad s (s.direction * line.x) line.value)
  := by
  rw [step] at h
  split at h
  case isTrue hshort =>
    cases h
    left
    exact ⟨hshort, rfl⟩
  case isFalse =>
    right
    obtain ⟨line, hline, h⟩ := Run.outcome_bind_eq_ok.mp h
    dsimp only at h
    split at h
    case isTrue =>
      split at h
      case isTrue =>
        left
        cases h
        rfl
      case isFalse =>
        right; left
        cases h
        rfl
    case isFalse =>
      right; right
      cases h
      exact ⟨line, hline, rfl⟩

theorem x_move (grad : Vec α n → Vec α n) (s : State α n) (d : Vec α n) (v : α) :
  (move grad s d v).x = s.x + d
  := by
  unfold move
  dsimp only
  split <;> rfl

theorem value_move (grad : Vec α n → Vec α n) (s : State α n) (d : Vec α n) (v : α) :
  (move grad s d v).value = v
  := by
  unfold move
  dsimp only
  split <;> rfl

theorem slope_move (grad : Vec α n → Vec α n) (s : State α n) (d : Vec α n) (v : α) :
  (move grad s d v).slope = grad (move grad s d v).x
  := by
  unfold move
  dsimp only
  split <;> rfl

/-- The stored gradient is the gradient at the stored point. -/
theorem reached_slope
    (h : Reached (fun i s => (step f grad options i s).outcome) (start f grad x₀) i s) :
  s.slope = grad s.x
  := by
  induction h with
  | start => rfl
  | next _ hstep ih =>
    rcases step_eq_ok hstep with ⟨-, hs⟩ | hs | hs | ⟨line, -, hs⟩
    · cases hs
    · cases hs
    · cases hs
      exact ih
    · cases hs
      apply slope_move

/-- A descent that ends at a minimum ends where the gradient is short. -/
theorem minimum_converged {r : Minimum α n} (h : (minimum f grad x₀ options).outcome = .ok r)
    (hr : r.converged = true) :
  (grad r.x).norm < options.tolerance
  := by
  obtain ⟨i, s, hs, ⟨-, hlast⟩ | ⟨-, hlast⟩⟩ := Run.exists_reached h
  · rcases step_eq_ok hlast with ⟨hshort, hr'⟩ | hr' | hr' | ⟨line, -, hr'⟩
    · cases hr'
      rw [← reached_slope hs]
      exact hshort
    · cases hr'
      cases hr
    · cases hr'
    · cases hr'
  · cases hlast
    cases hr

/-- A descent that starts where the gradient is short ends there. -/
theorem minimum_of_norm_lt (f : Vec α n → α) (hiterations : options.iterations ≠ 0)
    (h : (grad x₀).norm < options.tolerance) :
  minimum f grad x₀ options = .result ⟨x₀, f x₀, 0, true⟩
  := by
  obtain ⟨budget, hbudget⟩ := Nat.exists_eq_succ_of_ne_zero hiterations
  have hshort : (start f grad x₀).slope.norm < options.tolerance := h
  rw [minimum, hbudget, iterate_succ, step, if_pos hshort]
  rfl

end Numerics.ConjugateGradient
