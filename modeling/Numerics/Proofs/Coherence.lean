import Mathlib.Algebra.Order.Field.Basic
import Numerics.Proofs.LeastSquares.Damping
import Numerics.Proofs.LeastSquares.GaussNewton
import Numerics.Proofs.LeastSquares.Reweighting
import Numerics.Proofs.Minimize.Multipliers
import Numerics.Proofs.Minimize.Simplex
import Numerics.Proofs.Search.Brent
import Numerics.Proofs.Yields
import Numerics.Search.Root

/-!
# Points and their values

Every method ends with a point and with the value there. The two travel separately: a line search
computes a value at a distance along a ray, and the point at that distance is computed again
afterwards; a search on an interval ranks three points with their values; a simplex sorts and
replaces its vertices; a damped fit finds the cost of a step before it takes the step. Here it is
shown that they stay together, in every state of every method, and so in every result.

Nothing is assumed of the arithmetic. What is computed twice is computed in the same order, so it
is the same scalar whatever the rounding.
-/

namespace Numerics

variable {α : Type} [RealScalar α] {n m p q : Nat}

/-! ### Searches -/

namespace Brent

theorem update_coherent {f : α → α} {s : State α} {u : Sample α}
    (hs : s.best.value = f s.best.x) (hu : u.value = f u.x) :
  (update s u).best.value = f (update s u).best.x
  := by
  rw [update_best]
  split
  case isTrue => exact hu
  case isFalse => exact hs

/-- The least value on an interval is that at the point. -/
theorem minimum_coherent (f : α → α) (i : Interval α) (options : Options α) :
  (minimum f i options).value = f (minimum f i options).x
  := by
  apply iterate_satisfies (P := fun s => s.best.value = f s.best.x)
    (Q := fun r : ScalarResult α => r.value = f r.x)
  · intro k s hs
    rw [step]
    split
    case isTrue => exact hs
    case isFalse => exact update_coherent (s := { s with last := _, previous := _ }) hs rfl
  · intro s hs
    exact hs
  · rfl

end Brent

theorem minimizeBetween_coherent (f : α → α) (a b : α) (options : Options α) :
  (minimizeBetween f a b options).Yields fun r => r.value = f r.x
  := by
  constructor
  intro r hr
  rw [Brent.outcome_minimizeBetween] at hr
  obtain rfl := Except.ok.inj hr
  apply Brent.minimum_coherent

/-- A line search ends with the value at its distance along the ray. -/
theorem minimizeRay_coherent (f : α → α) (options : Options α) :
  (minimizeRay f options).Yields fun r => r.value = f r.x
  := by
  apply Run.yields_bind
  intro i
  apply minimizeBetween_coherent

theorem findRoot_coherent (f : α → α) (x₀ : α) (options : Options α) :
  (findRoot f x₀ options).Yields fun r => r.value = f r.x
  := by
  apply Run.yields_iterate (P := fun s => s.value = f s.x)
  · intro i s hs
    apply Run.yields_ite
    · intro _
      exact Run.yields_pure hs
    · intro _
      apply Run.yields_ite
      · intro _
        apply Run.yields_ite
        · intro _
          apply Run.yields_bind
          intro _
          exact Run.yields_pure rfl
        · intro _
          exact Run.yields_pure rfl
      · intro _
        exact Run.yields_fail _
  · intro s hs
    apply Run.yields_bind
    intro _
    exact Run.yields_pure hs
  · rfl

/-! ### Minimization -/

namespace ConjugateGradient

variable {f : Vec α n → α} {grad : Vec α n → Vec α n} {options : Options α}

/-- The stored value of a state that a descent comes to is that at the stored point. -/
theorem reached_value {x₀ : Vec α n} {i : Nat} {s : State α n}
    (h : Reached (fun i s => (step f grad options i s).outcome) (start f grad x₀) i s) :
  s.value = f s.x
  := by
  induction h with
  | start => rfl
  | next _ hstep ih =>
    rcases step_eq_ok hstep with ⟨-, hs⟩ | hs | hs | ⟨line, hline, hs⟩
    · cases hs
    · cases hs
    · cases hs
      exact ih
    · cases hs
      rw [x_move, value_move]
      apply (minimizeRay_coherent _ options).of_ok line hline

theorem minimum_coherent (f : Vec α n → α) (grad : Vec α n → Vec α n) (x₀ : Vec α n)
    (options : Options α) :
  (minimum f grad x₀ options).Yields fun r => r.value = f r.x
  := by
  constructor
  intro r hr
  obtain ⟨i, s, hs, ⟨-, hlast⟩ | ⟨-, hlast⟩⟩ := Run.exists_reached hr
  · rcases step_eq_ok hlast with ⟨-, hr'⟩ | hr' | hr' | ⟨line, -, hr'⟩
    · cases hr'
      apply reached_value hs
    · cases hr'
      apply reached_value hs
    · cases hr'
    · cases hr'
  · cases hlast
    apply reached_value hs

end ConjugateGradient

namespace Simplex

variable {f : Vec α n → α} {s : Vertices α n}

/-- All vertices have the values that they are said to have. -/
def Coherent (f : Vec α n → α) (s : Vertices α n) : Prop :=
  ∀ i, (s i).value = f (s i).x

theorem Coherent.sorted (h : Coherent f s) :
  Coherent f (sorted s)
  := by
  intro i
  obtain ⟨j, hj⟩ := exists_eq_sorted s i
  rw [hj]
  apply h j

theorem start_coherent (f : Vec α n → α) (x₀ : Vec α n) (edge : α) :
  Coherent f (start f x₀ edge)
  := by
  intro i
  rw [start, Vec.get_ofFn]
  split <;> rfl

omit [RealScalar α] in
theorem Coherent.replaceWorst (h : Coherent f s) {v : Vertex α n} (hv : v.value = f v.x) :
  Coherent f (replaceWorst s v)
  := by
  intro i
  rw [Simplex.replaceWorst, Vec.get_set]
  split
  case isTrue => exact hv
  case isFalse => apply h i

theorem Coherent.shrink (h : Coherent f s) :
  Coherent f (shrink f s)
  := by
  intro i
  rw [Simplex.shrink, Vec.get_ofFn]
  split
  case isTrue => apply h 0
  case isFalse => rfl

theorem Coherent.improve (h : Coherent f s) :
  Coherent f (improve f s)
  := by
  have hreplace : ∀ x, Coherent f (Simplex.replaceWorst s (vertex f x)) := by
    intro x
    apply h.replaceWorst rfl
  unfold Simplex.improve
  dsimp only
  split_ifs
  · apply hreplace
  · apply hreplace
  · apply hreplace
  · apply hreplace
  · exact h.shrink
  · apply hreplace
  · exact h.shrink

theorem minimum_coherent (f : Vec α n → α) (x₀ : Vec α n) (options : Options α) :
  (minimum f x₀ options).value = f (minimum f x₀ options).x
  := by
  apply iterate_satisfies (P := Coherent f) (Q := fun r : Minimum α n => r.value = f r.x)
  · intro i s hs
    rw [step]
    split
    case isTrue => apply hs.sorted 0
    case isFalse => apply hs.sorted.improve
  · intro s hs
    apply hs.sorted 0
  · apply start_coherent

end Simplex

theorem minimizeWith_coherent (f : Vec α n → α) (grad : Vec α n → Vec α n) (x₀ : Vec α n)
    (options : Options α) :
  (minimizeWith f grad x₀ options).Yields fun r => r.value = f r.x
  := by
  rw [minimizeWith]
  cases options.descent with
  | conjugateGradient => apply ConjugateGradient.minimum_coherent
  | simplex => exact Run.yields_pure (Simplex.minimum_coherent f x₀ options)

theorem minimize_coherent (f : Vec α n → α) (x₀ : Vec α n) (options : Options α) :
  (minimize f x₀ options).Yields fun r => r.value = f r.x
  := by
  apply (minimizeWith_coherent f _ x₀ options).bind
  intro r hr
  apply Run.yields_bind
  intro _
  exact Run.yields_pure hr

omit [RealScalar α] in
/-- Rounds that end with the value of the objective itself yield that, and so does a budget of
rounds that is spent. -/
theorem rounds_coherent {σ : Type} {f : Vec α n → α} {options : Options α}
    {step : Nat → σ → Run α (Round σ (Minimum α n))} (point : σ → Vec α n)
    (hstep : ∀ k s r, (step k s).outcome = .ok (.done r) → r.value = f r.x) (s₀ : σ) :
  (iterate step (fun s => endInfeasible f (point s) options)
    options.penaltyRounds 0 s₀).Yields fun r => r.value = f r.x
  := by
  constructor
  intro r hr
  obtain ⟨k, s, -, ⟨-, hlast⟩ | ⟨-, hlast⟩⟩ := Run.exists_reached hr
  · apply hstep k s r hlast
  · cases hlast
    rfl

theorem Exterior.minimum_coherent (f : Vec α n → α) (c : Constraints α n p q) (x₀ : Vec α n)
    (options : Options α) :
  (Exterior.minimum f c x₀ options).Yields fun r => r.value = f r.x
  := by
  apply rounds_coherent Exterior.State.x
  intro k s r hr
  obtain ⟨m, -, ⟨-, hs⟩ | hs⟩ := round_eq_ok hr
  · cases hs
    rfl
  · cases hs

theorem Lagrangian.minimum_coherent (f : Vec α n → α) (c : Constraints α n p q) (x₀ : Vec α n)
    (options : Options α) :
  (Lagrangian.minimum f c x₀ options).Yields fun r => r.value = f r.x
  := by
  apply rounds_coherent Lagrangian.State.x
  intro k s r hr
  obtain ⟨m, -, ⟨-, hs⟩ | hs⟩ := round_eq_ok hr
  · cases hs
    rfl
  · cases hs

theorem minimizeUnder_coherent (f : Vec α n → α) (c : Constraints α n p q) (x₀ : Vec α n)
    (options : Options α) :
  (minimizeUnder f c x₀ options).Yields fun r => r.value = f r.x
  := by
  apply Run.yields_ite
  · intro _
    apply minimize_coherent
  · intro _
    cases options.penalty with
    | exterior => apply Exterior.minimum_coherent
    | lagrangian => apply Lagrangian.minimum_coherent

/-! ### Fits -/

namespace GaussNewton

variable {γ : Type} [ChoiceSource γ] {r : Residuals α n m} {w : Vec α m} {x₀ : Vec α n}
  {options : Options α}

/-- The stored cost of a state that a fit comes to is that at the stored point. -/
theorem reached_cost {rows : Rows γ m} {k : Nat} {s : State γ α n m}
    (h : Reached (fun k s => (step r w options k s).outcome) ⟨x₀, r.cost w x₀, rows⟩ k s) :
  s.cost = r.cost w s.x
  := by
  cases h with
  | start => rfl
  | next _ hstep =>
    obtain ⟨d, line, -, hline, ht | ht⟩ := step_eq_ok hstep
    · cases ht
    · cases ht
      apply (minimizeRay_coherent _ options).of_ok line hline

theorem fit_coherent (r : Residuals α n m) (w : Vec α m) (x₀ : Vec α n) (rows : Rows γ m)
    (options : Options α) :
  (fit r w x₀ rows options).Yields fun result => result.cost = r.cost w result.x
  := by
  constructor
  intro result hresult
  obtain ⟨k, s, hs, ⟨-, hlast⟩ | ⟨-, hlast⟩⟩ := Run.exists_reached hresult
  · obtain ⟨d, line, -, hline, ht | ht⟩ := step_eq_ok hlast
    · cases ht
      apply (minimizeRay_coherent _ options).of_ok line hline
    · cases ht
  · cases hlast
    apply reached_cost hs

end GaussNewton

theorem LevenbergMarquardt.fit_coherent (r : Residuals α n m) (w : Vec α m) (x₀ : Vec α n)
    (options : Options α) :
  (LevenbergMarquardt.fit r w x₀ options).Yields fun result => result.cost = r.cost w result.x
  := by
  constructor
  intro result hresult
  obtain ⟨s, hs, hexit⟩ := exists_exit hresult
  obtain ⟨hx, hcost, -⟩ := hexit.eq
  rw [hx, hcost, hs.cost_eq]

theorem fitWeighted_coherent (r : Residuals α n m) (w : Vec α m) (x₀ : Vec α n)
    (options : Options α) :
  (fitWeighted r w x₀ options).Yields fun result => result.cost = r.cost w result.x
  := by
  rw [fitWeighted]
  cases options.fitting with
  | gaussNewton => apply GaussNewton.fit_coherent
  | levenbergMarquardt => apply LevenbergMarquardt.fit_coherent
  | subsampled => apply GaussNewton.fit_coherent

theorem fit_coherent (r : Residuals α n m) (x₀ : Vec α n) (options : Options α) :
  (fit r x₀ options).Yields fun result => result.cost = r.cost (Vec.fill 1) result.x
  := by
  apply (fitWeighted_coherent r (Vec.fill 1) x₀ options).bind
  intro result hresult
  apply Run.yields_bind
  intro _
  exact Run.yields_pure hresult

/-- The sum of the squares of the residuals at `x` without weights, as a robust fit computes it:
with the squared loss the residuals are multiplied by weights of one. -/
def plainCost (r : Residuals α n m) (loss : Loss) (x : Vec α n) : α :=
  if loss = .squared then r.cost (Vec.fill 1) x else (r.eval x).normSquared

/-- If a product with one is exact, both ways to compute the sum are the same. -/
theorem plainCost_eq (hone : ∀ a : α, 1 * a = a) (r : Residuals α n m) (loss : Loss)
    (x : Vec α n) :
  plainCost r loss x = (r.eval x).normSquared
  := by
  rw [plainCost, Residuals.cost_fill_one hone, ite_self]

theorem robustFit_coherent (r : Residuals α n m) (x₀ : Vec α n) (options : Options α) :
  (robustFit r x₀ options).Yields fun result => result.cost = plainCost r options.loss result.x
  := by
  constructor
  intro result hresult
  rw [plainCost]
  split
  case isTrue hloss =>
    have hplain := robustFit_of_squared hloss hresult
    apply (fitWeighted_coherent r (Vec.fill 1) x₀ options).of_ok result hplain
  case isFalse hloss =>
    obtain ⟨_, _, inner, _, -, -, -, -, rfl⟩ | ⟨s, -, rfl⟩ := robustFit_eq_ok hloss hresult
    · rfl
    · rfl

/-! ### All methods -/

variable (α n m p q) in
/-- Whatever the arithmetic, the function, the start and the options: if a method has a result,
converged or not, then the value of the result is that of the function at the point of the result.
This holds of the searches for a minimum and for a root, of both ways of minimization, of
constrained minimization under either penalty, where the value is that of the objective without it,
of all ways to fit, with weights of one, and of robust fits with any loss, where the value is the
sum of squares without weights. -/
theorem results_coherent :
  (∀ (f : α → α) (a b : α) (options : Options α) (result : ScalarResult α),
      (minimizeBetween f a b options).outcome = .ok result → result.value = f result.x)
    ∧ (∀ (f : α → α) (x₀ : α) (options : Options α) (result : ScalarResult α),
      (findRoot f x₀ options).outcome = .ok result → result.value = f result.x)
    ∧ (∀ (f : Vec α n → α) (x₀ : Vec α n) (options : Options α) (result : Minimum α n),
      (minimize f x₀ options).outcome = .ok result → result.value = f result.x)
    ∧ (∀ (f : Vec α n → α) (c : Constraints α n p q) (x₀ : Vec α n) (options : Options α)
        (result : Minimum α n),
      (minimizeUnder f c x₀ options).outcome = .ok result → result.value = f result.x)
    ∧ (∀ (r : Residuals α n m) (x₀ : Vec α n) (options : Options α) (result : FitResult α n),
      (fit r x₀ options).outcome = .ok result → result.cost = r.cost (Vec.fill 1) result.x)
    ∧ (∀ (r : Residuals α n m) (x₀ : Vec α n) (options : Options α) (result : FitResult α n),
      (robustFit r x₀ options).outcome = .ok result →
        result.cost = plainCost r options.loss result.x
          ∧ ((∀ a : α, 1 * a = a) → result.cost = (r.eval result.x).normSquared))
  := by
  refine ⟨?_, ?_, ?_, ?_, ?_, ?_⟩
  · intro f a b options
    apply (minimizeBetween_coherent f a b options).of_ok
  · intro f x₀ options
    apply (findRoot_coherent f x₀ options).of_ok
  · intro f x₀ options
    apply (minimize_coherent f x₀ options).of_ok
  · intro f c x₀ options
    apply (minimizeUnder_coherent f c x₀ options).of_ok
  · intro r x₀ options
    apply (fit_coherent r x₀ options).of_ok
  · intro r x₀ options result hresult
    have hcost := (robustFit_coherent r x₀ options).of_ok result hresult
    use hcost
    intro hone
    rw [hcost, plainCost_eq hone]

/-- A parabola is searched, minimized and fitted on a small budget. -/
theorem results_coherent_parabola :
  let f : ℚ → ℚ := fun x => x * x - 2 * x
  let g : Vec ℚ 1 → ℚ := fun x => f (x 0)
  let c : Constraints ℚ 1 1 0 := ⟨Vec.ofFn fun _ x => x 0 - 1, 0⟩
  let r : Residuals ℚ 1 1 := .ofFunction fun x => Vec.ofFn fun _ => f (x 0)
  let options : Options ℚ :=
    { Options.standard (1 / 1000) with iterations := 1, penaltyRounds := 1, loss := .huber }
  (∃ result, (minimizeBetween f (-1) 2 options).outcome = .ok result
      ∧ result.value = f result.x)
    ∧ (∃ result, (findRoot f 3 options).outcome = .ok result ∧ result.value = f result.x)
    ∧ (∃ result, (minimize g 0 options).outcome = .ok result ∧ result.value = g result.x)
    ∧ (∃ result, (minimizeUnder g c 0 options).outcome = .ok result ∧ result.value = g result.x)
    ∧ (∃ result, (fit r 0 options).outcome = .ok result
      ∧ result.cost = r.cost (Vec.fill 1) result.x)
    ∧ ∃ result, (robustFit r 0 options).outcome = .ok result
      ∧ result.cost = (r.eval result.x).normSquared
  := by
  intro f g c r options
  obtain ⟨hbetween, hroot, hminimum, hunder, hfit, hrobust⟩ := results_coherent ℚ 1 1 1 0
  have hbetween' : (minimizeBetween f (-1) 2 options).outcome.isOk = true := by decide +kernel
  have hroot' : (findRoot f 3 options).outcome.isOk = true := by decide +kernel
  have hminimum' : (minimize g 0 options).outcome.isOk = true := by decide +kernel
  have hunder' : (minimizeUnder g c 0 options).outcome.isOk = true := by decide +kernel
  have hfit' : (fit r 0 options).outcome.isOk = true := by decide +kernel
  have hrobust' : (robustFit r 0 options).outcome.isOk = true := by decide +kernel
  refine ⟨?_, ?_, ?_, ?_, ?_, ?_⟩
  · obtain ⟨result, hok⟩ := exists_of_isOk hbetween'
    use result, hok, hbetween f (-1) 2 options result hok
  · obtain ⟨result, hok⟩ := exists_of_isOk hroot'
    use result, hok, hroot f 3 options result hok
  · obtain ⟨result, hok⟩ := exists_of_isOk hminimum'
    use result, hok, hminimum g 0 options result hok
  · obtain ⟨result, hok⟩ := exists_of_isOk hunder'
    use result, hok, hunder g c 0 options result hok
  · obtain ⟨result, hok⟩ := exists_of_isOk hfit'
    use result, hok, hfit r 0 options result hok
  · obtain ⟨result, hok⟩ := exists_of_isOk hrobust'
    use result, hok, (hrobust r 0 options result hok).2 one_mul

end Numerics
