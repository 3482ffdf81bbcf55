import Mathlib.Algebra.Order.Field.Basic
import Numerics.Minimize.Constrained
import Numerics.Proofs.Coherence
import Numerics.Proofs.Minimize.Multipliers
import Numerics.Proofs.Minimize.Simplex
import Numerics.Proofs.Scalar.QuietNaN

/-!
# Feasibility in machine arithmetic

A constrained minimization ends at a minimum only where the violation of the constraints is below
the tolerance. The violation is the largest of several scalars by `maxNum`, which passes over a
value that is not a number. So it bounds the values that are numbers, and says nothing of the
others.

For the equations that gap is closed by the rest of the method. Their values enter the penalized
objective and its gradient by sums and products, and a minimization whose objective or gradient is
not a number at the end has not ended at a minimum. The values of the inequalities enter through
`maxNum` and a comparison only, so nothing notices one that is not a number: `minimizeUnder` can end
at a minimum where an inequality has no value at all.
-/

namespace Numerics

variable {α : Type} [RealScalar α] [QuietNaN α] {n p q : Nat} {f : Vec α n → α}
  {options : Options α}

open Constraints

/-! ### The violation -/

/-- The violation is not below a value that is a number. -/
theorem Constraints.le_violation (c : Constraints α n p q) (x : Vec α n) :
  (∀ i, IsNumber (c.atMostZero i x) → c.atMostZero i x ≤ c.violation x)
    ∧ ∀ j, IsNumber (c.zero j x) → abs (c.zero j x) ≤ c.violation x
  := by
  obtain ⟨hzero, hatMostZero⟩ := le_foldl_maxNum (α := α)
    (f := fun i => excess (c.atMostZero i x)) number_zero
  obtain ⟨hworst, hall⟩ := le_foldl_maxNum
    (f := fun j => abs (c.zero j x)) (numbers_of_le _ _ hzero).2
  constructor
  · intro i hi
    have hexcess : c.atMostZero i x ≤ excess (c.atMostZero i x) := le_maxNum_left _ _ hi
    have hnumber := (numbers_of_le _ _ hexcess).2
    apply number_le_trans (number_le_trans hexcess (hatMostZero i hnumber)) hworst
  · intro j hj
    apply hall j ((number_abs_iff _).mpr hj)

/-! ### The ends of the subproblems -/

/-- A simplex that collapses does so around values that are numbers. -/
theorem Simplex.minimum_number {x₀ : Vec α n} (hn : n ≠ 0)
    (h : (minimum f x₀ options).converged = true) :
  IsNumber (f (minimum f x₀ options).x)
  := by
  obtain ⟨s, -, hcollapsed, hbest⟩ := minimum_converged h
  have hother : Fin.last n ≠ 0 := fun h => hn (congrArg Fin.val h)
  have hagree := (agree_of_collapsed (hcollapsed.resolve_left hn) hother).1
  have hdifference := (number_abs_iff _).mp (numbers_of_le _ _ hagree).1
  have hvalue := (numbers_of_sub _ _ hdifference).2
  rw [hbest] at hvalue
  rw [← minimum_coherent f x₀ options]
  exact hvalue

/-- A minimization ends at a minimum only where its objective is a number, or all entries of its
gradient are. -/
theorem minimizeWith_number {grad : Vec α n → Vec α n} {x₀ : Vec α n} {m : Minimum α n}
    (hn : n ≠ 0) (h : (minimizeWith f grad x₀ options).outcome = .ok m)
    (hm : m.converged = true) :
  IsNumber (f m.x) ∨ ∀ k, IsNumber (grad m.x k)
  := by
  cases hdescent : options.descent with
  | conjugateGradient =>
    right
    apply Vec.numbers_of_norm
    exact (numbers_of_lt _ _ (minimizeWith_converged hdescent h hm)).1
  | simplex =>
    left
    rw [minimizeWith, hdescent] at h
    cases h
    apply Simplex.minimum_number hn hm

/-! ### The values of the equations -/

namespace Exterior

variable {c : Constraints α n p q} {weight : α} {z : Vec α n}

theorem numbers_of_objective (h : IsNumber (objective f c weight z)) (j : Fin q) :
  IsNumber (c.zero j z)
  := by
  obtain ⟨-, hpenalty⟩ := numbers_of_add _ _ h
  obtain ⟨-, hsum⟩ := numbers_of_mul _ _ hpenalty
  obtain ⟨-, hoff⟩ := numbers_of_add _ _ hsum
  have hstep : ∀ (acc : α) (j : Fin q), IsNumber (acc + natPower (c.zero j z) 2) →
      IsNumber acc ∧ IsNumber (c.zero j z) := by
    intro acc j hj
    obtain ⟨hacc, hsquare⟩ := numbers_of_add _ _ hj
    exact ⟨hacc, number_of_natPower_two hsquare⟩
  exact (foldl_backward hstep hoff).2 j

theorem numbers_of_slope {k : Fin n} (h : IsNumber (slope f c weight options z k)) (j : Fin q) :
  IsNumber (c.zero j z)
  := by
  have hstep : ∀ (g : Vec α n) (j : Fin q),
      IsNumber ((g + gradient (c.zero j) z options * (nat 2 * weight * c.zero j z) : Vec α n) k) →
        IsNumber (g k) ∧ IsNumber (c.zero j z) := by
    intro g j hj
    rw [Vec.get_add, Vec.get_mul] at hj
    obtain ⟨hg, hterm⟩ := numbers_of_add _ _ hj
    obtain ⟨-, hfactor⟩ := numbers_of_mul _ _ hterm
    exact ⟨hg, (numbers_of_mul _ _ hfactor).2⟩
  exact (foldl_backward (Q := fun g : Vec α n => IsNumber (g k)) hstep h).2 j

end Exterior

namespace Lagrangian

variable {c : Constraints α n p q} {s : State α n p q} {z : Vec α n}

/-- The equations are added first, so if the sum with the inequalities is a number, then so is the
one before these. -/
theorem numbers_of_objective (h : IsNumber (objective f c s z)) (j : Fin q) :
  IsNumber (c.zero j z)
  := by
  obtain ⟨hequations, -⟩ := foldl_backward (Q := IsNumber) (P := fun _ => True)
    (fun _ _ hi => ⟨(numbers_of_add _ _ hi).1, trivial⟩) h
  have hstep : ∀ (v : α) (j : Fin q),
      IsNumber (v + s.forZero j * c.zero j z + half * s.weight * c.zero j z * c.zero j z) →
        IsNumber v ∧ IsNumber (c.zero j z) := by
    intro v j hj
    obtain ⟨hlinear, hsquare⟩ := numbers_of_add _ _ hj
    exact ⟨(numbers_of_add _ _ hlinear).1, (numbers_of_mul _ _ hsquare).2⟩
  exact (foldl_backward hstep hequations).2 j

theorem numbers_of_slope {k : Fin n} (h : IsNumber (slope f c options s z k)) (j : Fin q) :
  IsNumber (c.zero j z)
  := by
  have hinequality : ∀ (g : Vec α n) (i : Fin p),
      IsNumber ((if shifted (s.forAtMostZero i) s.weight (c.atMostZero i z) > 0 then
          g + gradient (c.atMostZero i) z options
            * shifted (s.forAtMostZero i) s.weight (c.atMostZero i z)
        else g : Vec α n) k) → IsNumber (g k) ∧ True := by
    intro g i hi
    split at hi
    case isTrue =>
      rw [Vec.get_add] at hi
      exact ⟨(numbers_of_add _ _ hi).1, trivial⟩
    case isFalse => exact ⟨hi, trivial⟩
  obtain ⟨hequations, -⟩ := foldl_backward (Q := fun g : Vec α n => IsNumber (g k)) hinequality h
  have hstep : ∀ (g : Vec α n) (j : Fin q),
      IsNumber ((g + gradient (c.zero j) z options
          * (s.forZero j + s.weight * c.zero j z) : Vec α n) k) →
        IsNumber (g k) ∧ IsNumber (c.zero j z) := by
    intro g j hj
    rw [Vec.get_add, Vec.get_mul] at hj
    obtain ⟨hg, hterm⟩ := numbers_of_add _ _ hj
    obtain ⟨-, hfactor⟩ := numbers_of_mul _ _ hterm
    obtain ⟨-, hvalue⟩ := numbers_of_add _ _ hfactor
    exact ⟨hg, (numbers_of_mul _ _ hvalue).2⟩
  exact (foldl_backward (Q := fun g : Vec α n => IsNumber (g k)) hstep hequations).2 j

end Lagrangian

/-! ### Feasibility -/

/-- A round that ends at a minimum has minimized the penalized objective `f` along its gradient
`grad`. The violation at the minimum is below the tolerance, and if there are variables at all, then
the penalized objective is a number there, or its gradient is one of numbers. -/
theorem feasible_of_round {σ : Type} {grad : Vec α n → Vec α n} {x₀ : Vec α n}
    {event : Minimum α n → Event α} {next : Minimum α n → σ} {objective : Vec α n → α}
    {round : Nat} {c : Constraints α n p q} {r : Minimum α n} (hr : r.converged = true)
    (h : (do
      let m ← minimizeWith f grad x₀ options
      Run.announce (event m)
      if c.violation m.x < options.tolerance then
        return .done (← endFeasible objective m.x (round + 1) m.converged)
      else
        return .next (next m) : Run α (Round σ (Minimum α n))).outcome = .ok (.done r)) :
  c.violation r.x < options.tolerance
    ∧ (n ≠ 0 → IsNumber (f r.x) ∨ ∀ k, IsNumber (grad r.x k))
  := by
  obtain ⟨m, hm, ⟨hfeasible, hround⟩ | hround⟩ := round_eq_ok h
  · cases hround
    exact ⟨hfeasible, fun hn => minimizeWith_number (m := m) hn hm hr⟩
  · cases hround

/-- In machine arithmetic and in any other that has `QuietNaN`, with either penalty, either way of
minimization and at least one constraint: where a constrained minimization ends at a minimum, every
inequality whose value is a number has a value below the tolerance. So has every equation, up to the
sign; and if there are variables at all, then the value of each equation is a number. -/
theorem minimizeUnder_feasible (f : Vec α n → α) (c : Constraints α n p q) (x₀ : Vec α n)
    (options : Options α) (r : Minimum α n) (hconstrained : 0 < p + q)
    (h : (minimizeUnder f c x₀ options).outcome = .ok r) (hr : r.converged = true) :
  (∀ i, IsNumber (c.atMostZero i r.x) → c.atMostZero i r.x < options.tolerance)
    ∧ ∀ j, n ≠ 0 ∨ IsNumber (c.zero j r.x) → abs (c.zero j r.x) < options.tolerance
  := by
  have hround : c.violation r.x < options.tolerance ∧ (n ≠ 0 → ∀ j, IsNumber (c.zero j r.x)) := by
    have hsome : ¬ (p = 0 ∧ q = 0) := by omega
    rw [minimizeUnder, if_neg hsome] at h
    cases hpenalty : options.penalty with
    | exterior =>
      simp only [hpenalty] at h
      obtain ⟨k, s, -, hstep⟩ := rounds_converged Exterior.State.x hr h
      obtain ⟨hfeasible, hnumber⟩ := feasible_of_round hr hstep
      refine ⟨hfeasible, fun hn => ?_⟩
      obtain hvalue | hslope := hnumber hn
      · apply Exterior.numbers_of_objective hvalue
      · apply Exterior.numbers_of_slope (hslope ⟨0, Nat.pos_of_ne_zero hn⟩)
    | lagrangian =>
      simp only [hpenalty] at h
      obtain ⟨k, s, -, hstep⟩ := rounds_converged Lagrangian.State.x hr h
      obtain ⟨hfeasible, hnumber⟩ := feasible_of_round hr hstep
      refine ⟨hfeasible, fun hn => ?_⟩
      obtain hvalue | hslope := hnumber hn
      · apply Lagrangian.numbers_of_objective hvalue
      · apply Lagrangian.numbers_of_slope (hslope ⟨0, Nat.pos_of_ne_zero hn⟩)
  obtain ⟨hfeasible, hequations⟩ := hround
  obtain ⟨hatMostZero, hzero⟩ := c.le_violation r.x
  constructor
  · intro i hi
    apply lt_of_number_le_of_lt (hatMostZero i hi) hfeasible
  · intro j hj
    have hnumber := hj.elim (fun hn => hequations hn j) id
    apply lt_of_number_le_of_lt (hzero j hnumber) hfeasible

/-- In double precision, a square is minimized at zero under an equation that holds there and under
an inequality that has no value there. -/
theorem minimizeUnder_feasible_root :
  let f : Vec Float 1 → Float := fun x => x 0 * x 0
  let c : Constraints Float 1 1 1 :=
    ⟨Vec.ofFn fun _ x => sqrt (x 0 - 1), Vec.ofFn fun _ x => x 0⟩
  ∃ r, (minimizeUnder f c 0 .double).outcome = .ok r ∧ r.converged = true
    ∧ abs (c.zero 0 r.x) < Options.double.tolerance
  := by
  intro f c
  have hany : ((minimizeUnder f c 0 .double).outcome.toOption.any fun r =>
      decide (r.converged = true)) = true := by decide +kernel
  obtain ⟨r, hok, hr⟩ := exists_of_any hany
  use r, hok, hr
  exact (minimizeUnder_feasible f c 0 .double r (by decide) hok hr).2 0 (.inl one_ne_zero)

/-- With either penalty, a minimization in double precision that ends at a minimum where its only
inequality has no value, so that this is not below the tolerance. -/
theorem minimizeUnder_not_number :
  let f : Vec Float 1 → Float := fun x => x 0 * x 0
  let c : Constraints Float 1 1 0 := ⟨Vec.ofFn fun _ x => sqrt (x 0 - 1), 0⟩
  let exterior : Options Float := { Options.double with penalty := .exterior }
  let lagrangian : Options Float := { Options.double with penalty := .lagrangian }
  (∃ r, (minimizeUnder f c 0 exterior).outcome = .ok r ∧ r.converged = true
      ∧ ¬ c.atMostZero 0 r.x < exterior.tolerance)
    ∧ ∃ r, (minimizeUnder f c 0 lagrangian).outcome = .ok r ∧ r.converged = true
      ∧ ¬ c.atMostZero 0 r.x < lagrangian.tolerance
  := by
  intro f c exterior lagrangian
  constructor
  · apply exists_of_any
    decide +kernel
  · apply exists_of_any
    decide +kernel

end Numerics
