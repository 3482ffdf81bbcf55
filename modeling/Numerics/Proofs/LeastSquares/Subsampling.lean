import Mathlib.Algebra.Order.Field.Basic
import Mathlib.Tactic.Ring
import Numerics.LeastSquares.Fit
import Numerics.Proofs.Difference.Rows
import Numerics.Proofs.Iteration
import Numerics.Proofs.LeastSquares.RowSampler

/-!
# Samples of all residuals

A fit whose samples have as many rows as there are residuals does not depend on chance. The rows of
each draw are all rows in some order, the terms that rows add to the normal equations may be added
in any order, and a row that is differenced on its own is a row of the Jacobian. So each iteration
solves the equations of all residuals, whatever the sampler draws, and the fit runs as the one
without samples does.
-/

namespace Numerics

/-! ### Residuals one by one -/

namespace Residuals

variable {α : Type} {n m : Nat}

/-- A residual on its own is an entry of all of them. -/
def Consistent (r : Residuals α n m) : Prop :=
  ∀ x i, r.evalRow x i = r.eval x i

theorem ofFunction_consistent (f : Vec α n → Vec α m) :
  (ofFunction f).Consistent
  := by
  intro x i
  rfl

theorem ofFunctions_consistent (fs : Vec (Vec α n → α) m) :
  (ofFunctions fs).Consistent
  := by
  intro x i
  rw [ofFunctions, Vec.get_ofFn]

end Residuals

/-! ### Equations of all residuals -/

namespace NormalEquations

variable {α : Type} [ExactScalar α] {n m : Nat}

/-- Two rows may be added in any order. -/
theorem addRow_comm (e : NormalEquations α n) (j j' : Vec α n) (r r' w w' : α) :
  (e.addRow j r w).addRow j' r' w' = (e.addRow j' r' w').addRow j r w
  := by
  simp only [addRow, mk.injEq]
  constructor
  · ext p q
    simp only [Mat.get_add]
    ring
  · ext p
    simp only [Vec.get_sub]
    ring

theorem ofRows_perm (r : Residuals α n m) (x : Vec α n) (w : Vec α m) {rows rows' : List (Fin m)}
    (h : rows.Perm rows') (options : Options α) :
  ofRows r x w rows options = ofRows r x w rows' options
  := by
  apply h.foldl_eq'
  intro i _ i' _ e
  apply addRow_comm

theorem ofAll_eq_ofRows {r : Residuals α n m} (hr : r.Consistent) (x : Vec α n) (w : Vec α m)
    (options : Options α) :
  ofAll r x w options = ofRows r x w (List.finRange m) options
  := by
  have hgradient : ∀ i, (jacobian r.eval x options).row i
      = gradient (fun z => r.evalRow z i) x options := by
    intro i
    simp only [row_jacobian, hr _ i]
  simp only [ofAll, ofRows, Fin.foldl_eq_finRange_foldl, hgradient, hr x]

end NormalEquations

/-! ### Runs with full samples -/

namespace GaussNewton

variable {α : Type} [ExactScalar α] {n m : Nat} {γ : Type} {rows rows' : Rows γ m}

/-- Each iteration looks at all rows, in some order. -/
def Rows.Full : Rows γ m → Prop
  | .all => True
  | .sampled s => s.count = m ∧ s.Complete

theorem Rows.Full.all :
  (.all : Rows γ m).Full
  := trivial

theorem Rows.Full.start (source : γ) {requested : Nat} (unknowns : Nat) (h : m ≤ requested) :
  (.sampled (.start source requested unknowns) : Rows γ m).Full
  := ⟨RowSampler.count_start source unknowns h, RowSampler.start_complete source _ _⟩

theorem Rows.Full.equations_eq (h : rows.Full) {r : Residuals α n m} (hr : r.Consistent)
    (w : Vec α m) (options : Options α) (x : Vec α n) :
  equations r w options x rows = .ofAll r x w options
  := by
  cases rows with
  | all => rfl
  | sampled s =>
    rw [NormalEquations.ofAll_eq_ofRows hr]
    apply NormalEquations.ofRows_perm
    exact h.2.drawn_perm h.1

variable [ChoiceSource γ]

theorem Rows.Full.next (h : rows.Full) :
  rows.next.Full
  := by
  cases rows with
  | all => exact h
  | sampled s => exact ⟨s.count_next.trans h.1, h.2.next⟩

/-- An iteration with full rows is one without samples, but for the rows that it goes on with. -/
theorem Rows.Full.step_eq (h : rows.Full) {r : Residuals α n m} (hr : r.Consistent) (w : Vec α m)
    (options : Options α) (k : Nat) (x : Vec α n) (cost : α) :
  step r w options k ⟨x, cost, rows⟩
    = Round.map (fun s : State γ α n m => { s with rows := rows.next })
      <$> step r w options k ⟨x, cost, .all⟩
  := by
  simp only [step, h.next.equations_eq hr, Rows.Full.all.next.equations_eq hr, map_bind, apply_ite,
    map_pure, Round.map]

/-- States at the same point with the same cost, of iterations that look at all rows. -/
structure Alike (s s' : State γ α n m) : Prop where
  x_eq : s.x = s'.x
  cost_eq : s.cost = s'.cost
  full : s.rows.Full
  full' : s'.rows.Full

/-- Where the rows come from makes no difference to a run that looks at all of them. -/
theorem fit_full {r : Residuals α n m} (hr : r.Consistent) (w : Vec α m) (x₀ : Vec α n)
    (h : rows.Full) (h' : rows'.Full) (options : Options α) :
  fit r w x₀ rows options = fit r w x₀ rows' options
  := by
  apply iterate_eq_of_views (R := Alike)
  · rintro k ⟨x, cost, rows⟩ ⟨_, _, rows'⟩ ⟨rfl, rfl, hfull, hfull'⟩
    refine ⟨_, step r w options k ⟨x, cost, .all⟩, _, _,
      Rows.Full.step_eq hfull hr w options k x cost,
      Rows.Full.step_eq hfull' hr w options k x cost, ?_⟩
    intro s
    exact ⟨rfl, rfl, hfull.next, hfull'.next⟩
  · rintro ⟨x, cost, rows⟩ ⟨_, _, rows'⟩ ⟨rfl, rfl, -, -⟩
    rfl
  · exact ⟨rfl, rfl, h, h'⟩

end GaussNewton

/-! ### Fits with full samples -/

variable {α : Type} [ExactScalar α] {n m : Nat}

theorem outcome_fit (r : Residuals α n m) (x₀ : Vec α n) (options : Options α) :
  (fit r x₀ options).outcome = (fitWeighted r (Vec.fill 1) x₀ options).outcome
  := Run.outcome_announce _ _

/-- With exact scalars, and residuals that are the same one by one as together: a fit by samples of
at least as many rows as there are residuals ends as the fit by all residuals does, with the same
result or the same error. Wherever the random choices come from, and whatever the weights are, the
two fits are one run. -/
theorem fit_subsampled_full (r : Residuals α n m) (hr : r.Consistent) (x₀ : Vec α n)
    (options : Options α) (hsize : m ≤ options.sampleSize) :
  (fit r x₀ { options with fitting := .subsampled }).outcome
      = (fit r x₀ { options with fitting := .gaussNewton }).outcome
    ∧ ∀ {γ : Type} [ChoiceSource γ] (source : γ) (w : Vec α m),
      GaussNewton.fit r w x₀ (.sampled (RowSampler.start source options.sampleSize n)) options
        = GaussNewton.fit r w x₀ (.all : GaussNewton.Rows γ m) options
  := by
  constructor
  · rw [outcome_fit, outcome_fit]
    apply congrArg Run.outcome
    exact GaussNewton.fit_full hr _ _ (.start _ n hsize) .all _
  · intro γ _ source w
    exact GaussNewton.fit_full hr w x₀ (.start source n hsize) .all options

/-- Two residuals that are not zero at the same point, and samples of both. -/
theorem fit_subsampled_full_lines :
  let r : Residuals ℚ 1 2 :=
    .ofFunctions (Vec.ofFn fun i x => if i = 0 then x 0 - 1 else 2 * x 0 + 3)
  let options : Options ℚ := { Options.standard (1 / 10) with sampleSize := 2 }
  r.Consistent
    ∧ 2 ≤ options.sampleSize
    ∧ ∃ result,
      (fit r 0 { options with fitting := .gaussNewton }).outcome = .ok result
        ∧ result.converged = true
        ∧ (fit r 0 { options with fitting := .subsampled }).outcome = .ok result
  := by
  intro r options
  have hr : r.Consistent := Residuals.ofFunctions_consistent _
  have hsize : 2 ≤ options.sampleSize := by decide
  refine ⟨hr, hsize, ?_⟩
  obtain ⟨result, hresult, hconverged⟩ : ∃ result,
      (fit r 0 { options with fitting := .gaussNewton }).outcome = .ok result
        ∧ result.converged = true := by
    apply exists_of_any
    decide +kernel
  obtain ⟨hsame, -⟩ := fit_subsampled_full r hr 0 options hsize
  exact ⟨result, hresult, hconverged, hsame.trans hresult⟩

end Numerics
