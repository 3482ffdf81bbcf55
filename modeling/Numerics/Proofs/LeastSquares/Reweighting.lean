import Mathlib.Algebra.Order.Field.Basic
import Numerics.LeastSquares.Robust
import Numerics.Proofs.Iteration
import Numerics.Proofs.Scalar.Exact

/-!
# What the convergence of a robust fit says

A robust fit goes through rounds. In each of them the residuals are fitted with the weights of the
round before, and are weighed anew. The fit converges in the first round that leaves the weights as
they were, up to the tolerance, and nothing else decides about it. Whether the weighted fit of that
round has converged itself is not looked at: a robust fit may converge where its only weighted fit
has spent its budget.

With the squared loss there are no rounds, and the robust fit converges if the plain one does. All
of this holds in any arithmetic.
-/

namespace Numerics

namespace Robust

variable {α : Type} [RealScalar α] {n m : Nat} {r : Residuals α n m} {x₀ : Vec α n}
  {options : Options α} {k : Nat} {s : State α n m}

/-- The round from `s` ends its weighted fit with `inner`, and gives the residuals there the weights
`w`. -/
structure Refitted (r : Residuals α n m) (options : Options α) (s : State α n m)
    (inner : FitResult α n) (w : Vec α m) : Prop where
  fitted : (fitWeighted r s.weights s.x options).outcome = .ok inner
  weighed : ∃ spread, scale options (r.eval inner.x) = .ok spread
    ∧ w = weights options spread (r.eval inner.x)

/-- The new weights `w` are the weights of `s`, up to the tolerance. -/
def WeightsSettled (options : Options α) (s : State α n m) (w : Vec α m) : Prop :=
  change w s.weights < options.tolerance

/-- What ends the robust fit at `x`, after `rounds` rounds. -/
def finished (r : Residuals α n m) (rounds : Nat) (converged : Bool) (x : Vec α n) :
    FitResult α n :=
  ⟨x, (r.eval x).normSquared, rounds, converged⟩

/-- A round ends the robust fit if the weights have settled, and otherwise goes on with the new
weights. -/
theorem step_eq_ok_iff {t : Round (State α n m) (FitResult α n)} :
  (step r options k s).outcome = .ok t
    ↔ ∃ inner w, Refitted r options s inner w
      ∧ (WeightsSettled options s w ∧ t = .done (finished r (k + 1) true inner.x)
        ∨ ¬ WeightsSettled options s w ∧ t = .next ⟨inner.x, w⟩)
  := by
  constructor
  · intro h
    obtain ⟨inner, hfitted, h⟩ := Run.outcome_bind_eq_ok.mp h
    obtain ⟨spread, hspread, h⟩ := Run.outcome_bind_eq_ok.mp h
    refine ⟨inner, _, ⟨hfitted, spread, hspread, rfl⟩, ?_⟩
    obtain ⟨-, -, h⟩ := Run.outcome_bind_eq_ok.mp h
    split at h
    case isTrue hsettled =>
      cases h
      exact .inl ⟨hsettled, rfl⟩
    case isFalse hmoved =>
      cases h
      exact .inr ⟨hmoved, rfl⟩
  · rintro ⟨inner, w, ⟨hfitted, spread, hspread, rfl⟩, h⟩
    apply Run.outcome_bind_eq_ok.mpr ⟨inner, hfitted, _⟩
    apply Run.outcome_bind_eq_ok.mpr ⟨spread, hspread, _⟩
    apply Run.outcome_bind_eq_ok.mpr ⟨(), rfl, _⟩
    unfold WeightsSettled at h
    obtain ⟨hsettled, rfl⟩ | ⟨hmoved, rfl⟩ := h
    · rw [if_pos hsettled]
      rfl
    · rw [if_neg hmoved]
      rfl

/-- The robust fit from `x₀` comes to the state `s` after `k` rounds. -/
def Visited (r : Residuals α n m) (x₀ : Vec α n) (options : Options α) (k : Nat)
    (s : State α n m) : Prop :=
  Reached (fun k s => (step r options k s).outcome) ⟨x₀, Vec.fill 1⟩ k s

end Robust

open Robust

section

variable {α : Type} [RealScalar α] {n m : Nat} {r : Residuals α n m} {x₀ : Vec α n}
  {options : Options α} {result : FitResult α n}

theorem robustFit_of_squared (hloss : options.loss = .squared)
    (h : (robustFit r x₀ options).outcome = .ok result) :
  (fitWeighted r (Vec.fill 1) x₀ options).outcome = .ok result
  := by
  rw [robustFit, if_pos hloss] at h
  obtain ⟨inner, hfitted, h⟩ := Run.outcome_bind_eq_ok.mp h
  cases h
  exact hfitted

/-- The rounds of a robust fit end where the weights settle, or where the budget is spent. -/
theorem robustFit_eq_ok (hloss : options.loss ≠ .squared)
    (h : (robustFit r x₀ options).outcome = .ok result) :
  (∃ k s inner w, k < options.reweightRounds
      ∧ Visited r x₀ options k s
      ∧ Refitted r options s inner w
      ∧ WeightsSettled options s w
      ∧ result = finished r (k + 1) true inner.x)
    ∨ ∃ s, Visited r x₀ options options.reweightRounds s
      ∧ result = finished r options.reweightRounds false s.x
  := by
  rw [robustFit, if_neg hloss] at h
  obtain ⟨k, s, hs, ⟨hk, hlast⟩ | ⟨rfl, hlast⟩⟩ := Run.exists_reached h
  · left
    obtain ⟨inner, w, hrefitted, ⟨hsettled, hresult⟩ | ⟨-, hresult⟩⟩ := step_eq_ok_iff.mp hlast
    · cases hresult
      exact ⟨k, s, inner, w, hk, hs, hrefitted, hsettled, rfl⟩
    · cases hresult
  · right
    cases hlast
    exact ⟨s, hs, rfl⟩

/-- A robust fit ends in a round that leaves the weights settled. -/
theorem robustFit_of_settled (hloss : options.loss ≠ .squared) {k : Nat} {s : State α n m}
    {inner : FitResult α n} {w : Vec α m} (hk : k < options.reweightRounds)
    (hs : Visited r x₀ options k s) (hrefitted : Refitted r options s inner w)
    (hsettled : WeightsSettled options s w) :
  (robustFit r x₀ options).outcome = .ok (finished r (k + 1) true inner.x)
  := by
  rw [robustFit, if_neg hloss, Run.outcome_iterate]
  apply Reached.iterate_done hs hk
  rw [step_eq_ok_iff]
  exact ⟨inner, w, hrefitted, .inl ⟨hsettled, rfl⟩⟩

/-- In any arithmetic, let a robust fit have a result. With the squared loss it is the result of the
plain fit, and has converged if that has. With another loss it has converged if and only if one of
its rounds leaves the weights settled, and then it is the point that the weighted fit of this round
ended with, whether that fit has converged or not. -/
theorem robustFit_converged_iff (r : Residuals α n m) (x₀ : Vec α n) (options : Options α)
    (h : (robustFit r x₀ options).outcome = .ok result) :
  (options.loss = .squared → (fitWeighted r (Vec.fill 1) x₀ options).outcome = .ok result)
    ∧ (options.loss ≠ .squared →
        (result.converged = true ↔ ∃ k s inner w, k < options.reweightRounds
          ∧ Visited r x₀ options k s
          ∧ Refitted r options s inner w
          ∧ WeightsSettled options s w)
        ∧ ∀ k s inner w, k < options.reweightRounds → Visited r x₀ options k s →
          Refitted r options s inner w → WeightsSettled options s w →
            result = finished r (k + 1) true inner.x)
  := by
  refine ⟨fun hloss => robustFit_of_squared hloss h, ?_⟩
  intro hloss
  have hends : ∀ k s inner w, k < options.reweightRounds → Visited r x₀ options k s →
      Refitted r options s inner w → WeightsSettled options s w →
        result = finished r (k + 1) true inner.x := by
    intro k s inner w hk hs hrefitted hsettled
    apply Except.ok.inj (ε := SolverError)
    rw [← h, robustFit_of_settled hloss hk hs hrefitted hsettled]
  refine ⟨⟨?_, ?_⟩, hends⟩
  · intro hconverged
    obtain ⟨k, s, inner, w, hk, hs, hrefitted, hsettled, -⟩ | ⟨s, -, rfl⟩ :=
      robustFit_eq_ok hloss h
    · exact ⟨k, s, inner, w, hk, hs, hrefitted, hsettled⟩
    · cases hconverged
  · rintro ⟨k, s, inner, w, hk, hs, hrefitted, hsettled⟩
    rw [hends k s inner w hk hs hrefitted hsettled]
    rfl

end

/-- The options of a robust fit with the Huber loss whose weighted fits have a given budget. -/
def huberOptions (iterations : Nat) : Options ℚ :=
  { Options.standard (1 / 1000) with
    fitting := .levenbergMarquardt
    loss := .huber
    iterations }

theorem robustFit_converged_iff_line :
  let r : Residuals ℚ 1 1 := .ofFunction fun x => Vec.ofFn fun _ => x 0 - 1
  ∃ result, (robustFit r 0 (huberOptions 10)).outcome = .ok result
    ∧ ∃ k s inner w, k < (huberOptions 10).reweightRounds
      ∧ Visited r 0 (huberOptions 10) k s
      ∧ Refitted r (huberOptions 10) s inner w
      ∧ WeightsSettled (huberOptions 10) s w
  := by
  intro r
  obtain ⟨result, hok, hconverged⟩ : ∃ result,
      (robustFit r 0 (huberOptions 10)).outcome = .ok result ∧ result.converged = true := by
    apply exists_of_any
    decide +kernel
  have hloss : (huberOptions 10).loss ≠ .squared := by decide
  obtain ⟨-, hrounds⟩ := robustFit_converged_iff r 0 (huberOptions 10) hok
  exact ⟨result, hok, (hrounds hloss).1.mp hconverged⟩

/-- A robust fit whose weighted fits may take no step converges at its start, although the weighted
fit that ended there, in the only round, has not converged. -/
theorem robustFit_converged_unsettled :
  let r : Residuals ℚ 1 1 := .ofFunction fun x => Vec.ofFn fun _ => x 0 - 1
  ∃ result inner, (robustFit r 0 (huberOptions 0)).outcome = .ok result
    ∧ result.converged = true
    ∧ result.iterations = 1
    ∧ (fitWeighted r (Vec.fill 1) 0 (huberOptions 0)).outcome = .ok inner
    ∧ inner.x = result.x
    ∧ inner.converged = false
  := by
  intro r
  obtain ⟨result, hok, hconverged, hiterations, hx⟩ : ∃ result,
      (robustFit r 0 (huberOptions 0)).outcome = .ok result ∧ result.converged = true
        ∧ result.iterations = 1 ∧ result.x 0 = 0 := by
    apply exists_of_any
    decide +kernel
  refine ⟨result, ⟨0, r.cost (Vec.fill 1) 0, 0, false⟩, hok, hconverged, hiterations, rfl, ?_, rfl⟩
  ext i
  obtain rfl := Subsingleton.elim 0 i
  exact hx.symm

end Numerics
