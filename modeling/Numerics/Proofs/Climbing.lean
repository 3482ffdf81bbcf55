import Mathlib.Algebra.Order.Field.Basic
import Numerics.Proofs.Coherence

/-!
# Line searches that lead uphill

A line search brackets a minimum along a ray, and ends with the best point that it looks at inside
the bracket. The start of the ray need not be one of these points. Where the function has several
minima along the ray, they may all be higher than the start, and then the line search `Climbs`.

Conjugate gradients and fits by linearisation go to where their line searches end. So their result
is at least as good as their start, unless one of the line searches climbs. Nothing but the
comparison of numbers enters into this. And line searches do climb: between `twoWells` all of these
methods end at a point that is worse than their start.
-/

namespace Numerics

/-! ### Line searches -/

/-- A line search along `φ` ends with a value greater than `v`. -/
def Climbs {α : Type} [RealScalar α] (φ : α → α) (options : Options α) (v : α) : Prop :=
  ∃ line, (minimizeRay φ options).outcome = .ok line ∧ v < line.value

/-- With exact scalars and roots, a line search climbs if there is a bracket, and every point that
the search on it looks at is higher. -/
theorem climbs_iff {α : Type} [ExactReal α] {φ : α → α} {options : Options α} {v : α}
    (htol : 0 ≤ options.tolerance) :
  Climbs φ options v
    ↔ ∃ i, bracket φ 0 1 = .ok i
      ∧ ∀ p ∈ (Brent.query (.between i.lower i.upper) options).asked φ, v < φ p
  := by
  have hbetween : ∀ i : Interval α, bracket φ 0 1 = .ok i →
      ∃ line, (minimizeRay φ options).outcome = .ok line
        ∧ Brent.Least φ ((Brent.query (.between i.lower i.upper) options).asked φ) line := by
    intro i hi
    have hordered : (Interval.between i.lower i.upper).lower
        ≤ (Interval.between i.lower i.upper).upper := by
      rw [Bracket.between_eq]
      exact min_le_max
    obtain ⟨line, hanswer, hleast, -⟩ := Brent.query_least (f := φ) hordered htol
    refine ⟨line, ?_, hleast⟩
    apply Run.outcome_bind_eq_ok.mpr ⟨i, hi, _⟩
    rw [Brent.outcome_minimizeBetween, ← Brent.answer_query, hanswer]
  constructor
  · rintro ⟨line, hline, hhigher⟩
    obtain ⟨i, hi, -⟩ := Run.outcome_bind_eq_ok.mp hline
    obtain ⟨line', hline', hleast⟩ := hbetween i hi
    cases hline.symm.trans hline'
    use i, hi
    intro p hp
    exact hhigher.trans_le (hleast.le p hp)
  · rintro ⟨i, hi, hhigher⟩
    obtain ⟨line, hline, hleast⟩ := hbetween i hi
    use line, hline
    rw [hleast.value]
    apply hhigher _ hleast.mem

/-! ### Iterations of line searches -/

section

variable {α : Type} [RealScalar α] {ε σ ρ : Type} {step : Nat → σ → Except ε (Round σ ρ)} {s₀ : σ}
  {value : σ → α} {Ray : σ → (α → α) → Prop} {options : Options α}

/-- A line search of the iteration of `step` from `s₀`, along one of the rays from a state that it
comes to, climbs. -/
def ClimbsFrom (step : Nat → σ → Except ε (Round σ ρ)) (s₀ : σ) (value : σ → α)
    (Ray : σ → (α → α) → Prop) (options : Options α) : Prop :=
  ∃ i s φ, Reached step s₀ i s ∧ Ray s φ ∧ Climbs φ options (value s)

/-- The value `v` is that of `s`, or a line search along a ray from `s` ends with it. -/
def Searched (value : σ → α) (Ray : σ → (α → α) → Prop) (options : Options α) (s : σ) (v : α) :
    Prop :=
  v = value s ∨ ∃ φ line, Ray s φ ∧ (minimizeRay φ options).outcome = .ok line ∧ v = line.value

variable [OrderedNumbers α]

/-- What one step keeps: the value is not above that of the start, or a line search climbs. A line
search that does not climb from `s` goes on descending. -/
theorem Searched.le_or_climbs {i : Nat} {s : σ} {v : α} (h : Searched value Ray options s v)
    (hs : Reached step s₀ i s) (hnumber : IsNumber (value s₀)) (hnumber' : IsNumber (value s))
    (hv : IsNumber v) (hle : value s ≤ value s₀ ∨ ClimbsFrom step s₀ value Ray options) :
  v ≤ value s₀ ∨ ClimbsFrom step s₀ value Ray options
  := by
  obtain hle | hclimbs := hle
  · obtain rfl | ⟨φ, line, hray, hline, rfl⟩ := h
    · left
      exact hle
    · by_cases hdown : line.value ≤ value s
      · left
        apply OrderedNumbers.le_trans _ _ _ hv hnumber' hnumber hdown hle
      · right
        exact ⟨i, s, φ, hs, hray, line, hline, (hv.not_le hnumber').mp hdown⟩
  · right
    exact hclimbs

/-- What all steps keep. -/
theorem reached_le_or_climbs (hnumber : ∀ i s, Reached step s₀ i s → IsNumber (value s))
    (hnext : ∀ i s s', Reached step s₀ i s → step i s = .ok (.next s') →
      Searched value Ray options s (value s'))
    {i : Nat} {s : σ} (h : Reached step s₀ i s) :
  value s ≤ value s₀ ∨ ClimbsFrom step s₀ value Ray options
  := by
  have hstart := hnumber 0 s₀ .start
  induction h with
  | start =>
    left
    exact hstart.le_refl
  | next hs hstep ih =>
    apply (hnext _ _ _ hs hstep).le_or_climbs hs hstart (hnumber _ _ hs)
    · apply hnumber _ _ (hs.next hstep)
    · exact ih

end

/-! ### Conjugate gradients -/

section

variable {α : Type} [RealScalar α] {n m : Nat}

namespace ConjugateGradient

variable {f : Vec α n → α} {grad : Vec α n → Vec α n} {x₀ : Vec α n} {options : Options α}

/-- A line search of the descent from `x₀` climbs. -/
def DescentClimbs (f : Vec α n → α) (grad : Vec α n → Vec α n) (x₀ : Vec α n)
    (options : Options α) : Prop :=
  ClimbsFrom (fun i s => (step f grad options i s).outcome) (start f grad x₀) State.value
    (fun s φ => φ = along f s) options

theorem searched_next {i : Nat} {s s' : State α n}
    (h : (step f grad options i s).outcome = .ok (.next s')) :
  Searched State.value (fun s φ => φ = along f s) options s s'.value
  := by
  rcases step_eq_ok h with ⟨-, hs⟩ | hs | hs | ⟨line, hline, hs⟩
  · cases hs
  · cases hs
  · cases hs
    left
    rfl
  · cases hs
    right
    exact ⟨_, line, rfl, hline, value_move _ _ _ _⟩

theorem minimum_le_or_climbs [OrderedNumbers α] (hf : ∀ x, IsNumber (f x)) {r : Minimum α n}
    (h : (minimum f grad x₀ options).outcome = .ok r) :
  r.value ≤ f x₀ ∨ DescentClimbs f grad x₀ options
  := by
  have hreached : ∀ i s,
      Reached (fun i s => (step f grad options i s).outcome) (start f grad x₀) i s →
        s.value ≤ f x₀ ∨ DescentClimbs f grad x₀ options := by
    intro i s hs
    apply reached_le_or_climbs _ _ hs
    · intro i s hs
      rw [reached_value hs]
      apply hf
    · intro i s s' _ hstep
      apply searched_next hstep
  obtain ⟨i, s, hs, ⟨-, hlast⟩ | ⟨-, hlast⟩⟩ := Run.exists_reached h
  · rcases step_eq_ok hlast with ⟨-, hr⟩ | hr | hr | ⟨line, -, hr⟩
    · cases hr
      apply hreached i s hs
    · cases hr
      apply hreached i s hs
    · cases hr
    · cases hr
  · cases hlast
    apply hreached _ s hs

end ConjugateGradient

/-! ### Fits -/

namespace GaussNewton

variable {γ : Type} [ChoiceSource γ] {r : Residuals α n m} {w : Vec α m} {x₀ : Vec α n}
  {rows : Rows γ m} {options : Options α}

/-- The ray from `s` along a solution of the normal equations there. -/
def RayFrom (r : Residuals α n m) (w : Vec α m) (options : Options α) (s : State γ α n m)
    (φ : α → α) : Prop :=
  ∃ d, (equations r w options s.x s.rows.next).solve = .ok d
    ∧ φ = fun t => r.cost w (s.x + d * t)

/-- A line search of the fit from `x₀` climbs. -/
def FitClimbs (r : Residuals α n m) (w : Vec α m) (x₀ : Vec α n) (rows : Rows γ m)
    (options : Options α) : Prop :=
  ClimbsFrom (fun k s => (step r w options k s).outcome) ⟨x₀, r.cost w x₀, rows⟩ State.cost
    (RayFrom r w options) options

theorem fit_le_or_climbs [OrderedNumbers α] (hr : ∀ x, IsNumber (r.cost w x))
    {result : FitResult α n} (h : (fit r w x₀ rows options).outcome = .ok result) :
  result.cost ≤ r.cost w x₀ ∨ FitClimbs r w x₀ rows options
  := by
  have hnumber : ∀ k s, Reached (fun k s => (step r w options k s).outcome)
      ⟨x₀, r.cost w x₀, rows⟩ k s → IsNumber s.cost := by
    intro k s hs
    rw [reached_cost hs]
    apply hr
  have hreached : ∀ k s, Reached (fun k s => (step r w options k s).outcome)
      ⟨x₀, r.cost w x₀, rows⟩ k s → s.cost ≤ r.cost w x₀ ∨ FitClimbs r w x₀ rows options := by
    intro k s hs
    apply reached_le_or_climbs hnumber _ hs
    intro k s s' _ hstep
    obtain ⟨d, line, hd, hline, ht | ht⟩ := step_eq_ok hstep
    · cases ht
    · cases ht
      right
      exact ⟨_, line, ⟨d, hd, rfl⟩, hline, rfl⟩
  have hcost := (fit_coherent r w x₀ rows options).of_ok result h
  obtain ⟨k, s, hs, ⟨-, hlast⟩ | ⟨-, hlast⟩⟩ := Run.exists_reached h
  · obtain ⟨d, line, hd, hline, ht | ht⟩ := step_eq_ok hlast
    · cases ht
      have hsearched : Searched State.cost (RayFrom r w options) options s line.value :=
        .inr ⟨_, line, ⟨d, hd, rfl⟩, hline, rfl⟩
      apply hsearched.le_or_climbs hs (hr x₀) (hnumber k s hs) _ (hreached k s hs)
      dsimp only at hcost
      rw [hcost]
      apply hr
    · cases ht
  · cases hlast
    apply hreached _ s hs

end GaussNewton

variable (n) in
/-- The residuals that a fit by linearisation makes its equations of. -/
def linearisedRows (options : Options α) : GaussNewton.Rows Random.Xoshiro m :=
  match options.fitting with
  | .subsampled =>
    .sampled (RowSampler.start (Random.Xoshiro.ofSeed options.seed) options.sampleSize n)
  | _ => .all

theorem fitWeighted_eq_fit (r : Residuals α n m) (w : Vec α m) (x₀ : Vec α n)
    {options : Options α} (h : options.fitting ≠ .levenbergMarquardt) :
  fitWeighted r w x₀ options = GaussNewton.fit r w x₀ (linearisedRows n options) options
  := by
  rw [fitWeighted, linearisedRows]
  cases hfitting : options.fitting with
  | gaussNewton => rfl
  | levenbergMarquardt => exact absurd hfitting h
  | subsampled => rfl

/-! ### Results and starts -/

variable (α n m) in
/-- As long as numbers are compared as such: the result of conjugate gradients, for an objective
that gives numbers, and the result of a fit by linearisation, of all or of some residuals whose
costs are numbers, are at least as good as the start, or else a line search of the run climbs. -/
theorem runs_descend_or_climb [OrderedNumbers α] :
  (∀ (f : Vec α n → α) (x₀ : Vec α n) (options : Options α) (result : Minimum α n),
      (∀ x, IsNumber (f x)) → options.descent = .conjugateGradient →
      (minimize f x₀ options).outcome = .ok result →
        result.value ≤ f x₀
          ∨ ConjugateGradient.DescentClimbs f (fun x => gradient f x options) x₀ options)
    ∧ (∀ (r : Residuals α n m) (x₀ : Vec α n) (options : Options α) (result : FitResult α n),
      (∀ x, IsNumber (r.cost (Vec.fill 1) x)) → options.fitting ≠ .levenbergMarquardt →
      (fit r x₀ options).outcome = .ok result →
        result.cost ≤ r.cost (Vec.fill 1) x₀
          ∨ GaussNewton.FitClimbs r (Vec.fill 1) x₀ (linearisedRows n options) options)
  := by
  constructor
  · intro f x₀ options result hf hdescent h
    obtain ⟨r, hr, h⟩ := Run.outcome_bind_eq_ok.mp h
    cases h
    rw [minimizeWith, hdescent] at hr
    apply ConjugateGradient.minimum_le_or_climbs hf hr
  · intro r x₀ options result hr hfitting h
    obtain ⟨inner, hinner, h⟩ := Run.outcome_bind_eq_ok.mp h
    cases h
    rw [fitWeighted_eq_fit r _ x₀ hfitting] at hinner
    apply GaussNewton.fit_le_or_climbs hr hinner

end

/-- A parabola is minimized and fitted on a small budget. -/
theorem runs_descend_or_climb_parabola :
  let f : Vec ℚ 1 → ℚ := fun x => x 0 * x 0 - 2 * x 0
  let r : Residuals ℚ 1 1 := .ofFunction fun x => Vec.ofFn fun _ => f x
  let options : Options ℚ := { Options.standard (1 / 1000) with iterations := 1 }
  (∃ result, (minimize f 0 options).outcome = .ok result
      ∧ (result.value ≤ f 0
        ∨ ConjugateGradient.DescentClimbs f (fun x => gradient f x options) 0 options))
    ∧ ∃ result, (fit r 0 options).outcome = .ok result
      ∧ (result.cost ≤ r.cost (Vec.fill 1) 0
        ∨ GaussNewton.FitClimbs r (Vec.fill 1) 0 (linearisedRows 1 options) options)
  := by
  intro f r options
  obtain ⟨hminimize, hfit⟩ := runs_descend_or_climb ℚ 1 1
  have hminimize' : (minimize f 0 options).outcome.isOk = true := by decide +kernel
  have hfit' : (fit r 0 options).outcome.isOk = true := by decide +kernel
  constructor
  · obtain ⟨result, hok⟩ := exists_of_isOk hminimize'
    use result, hok, hminimize f 0 options result (fun _ => rfl) rfl hok
  · obtain ⟨result, hok⟩ := exists_of_isOk hfit'
    use result, hok, hfit r 0 options result (fun _ => rfl) (by decide) hok

/-- A function with a minimum of `-1 / 32` near zero, which is narrow, and one of `1 / 100` at
`-2 / 5`, which is wide. -/
def twoWells (x : ℚ) : ℚ :=
  min (8 * (x * x) - x) ((x + 2 / 5) * (x + 2 / 5) / 2 + 1 / 100)

/-- The bracket that a line search finds from zero contains both minima, and the search on it ends
in the wide one. The function is higher there than at zero. Conjugate gradients converge there, and
so do both fits by linearisation. -/
theorem minimize_fit_climb :
  let f : Vec ℚ 1 → ℚ := fun x => twoWells (x 0)
  let r : Residuals ℚ 1 1 := .ofFunction fun x => Vec.ofFn fun _ => 1 + f x
  (∃ result, (minimize f 0 (.standard (1 / 1000000))).outcome = .ok result
      ∧ result.converged = true
      ∧ f 0 < result.value)
    ∧ (∃ result, (fit r 0 (.standard (1 / 10))).outcome = .ok result
      ∧ result.converged = true
      ∧ r.cost (Vec.fill 1) 0 < result.cost)
    ∧ ∃ result,
        (fit r 0 { Options.standard (1 / 10) with fitting := .subsampled }).outcome = .ok result
      ∧ result.converged = true
      ∧ r.cost (Vec.fill 1) 0 < result.cost
  := by
  intro f r
  refine ⟨?_, ?_, ?_⟩
  · apply exists_of_any
    decide +kernel
  · apply exists_of_any
    decide +kernel
  · apply exists_of_any
    decide +kernel

end Numerics
