import Mathlib.Algebra.Order.BigOperators.Group.List
import Mathlib.Algebra.Order.Field.Basic
import Mathlib.Data.List.FinRange
import Numerics.Difference
import Numerics.LeastSquares.LevenbergMarquardt

/-!
# How many residuals a fit evaluates

`r.ReadsAtMost k F` says that `F` looks at the residuals `r` at no more than `k` points: residuals
that have the same values there make no difference to it. The points may depend on the values that
were read before, so what is computed in sequence reads as often as its parts together, by
`ReadsAtMost.bind`, and an iteration on a budget reads as often as its steps, by
`ReadsAtMost.iterate`.

In any arithmetic, a Jacobian reads at most six times along each axis, a trial of a damped fit reads
once, and the fit as a whole as often as its budgets allow.
-/

namespace Numerics

namespace Residuals

section

variable {α β γ : Type} {n m : Nat}

/-- What `F` makes of the residuals `r` depends on no more than `k` of their values. -/
def ReadsAtMost (r : Residuals α n m) (k : Nat) (F : Residuals α n m → β) : Prop :=
  ∃ points : List (Vec α n), points.length ≤ k
    ∧ ∀ r' : Residuals α n m, (∀ x ∈ points, r'.eval x = r.eval x) → F r' = F r

namespace ReadsAtMost

variable {r : Residuals α n m} {k k' : Nat}

theorem const (r : Residuals α n m) (k : Nat) (b : β) :
  r.ReadsAtMost k fun _ => b
  := ⟨[], Nat.zero_le k, fun _ _ => rfl⟩

theorem eval (r : Residuals α n m) (x : Vec α n) :
  r.ReadsAtMost 1 fun r => r.eval x
  := ⟨[x], Nat.le_refl 1, fun _ h => h x (List.mem_singleton_self x)⟩

/-- What is determined by `F` reads no more than `F`. -/
theorem congr {F : Residuals α n m → β} {H : Residuals α n m → γ} (h : r.ReadsAtMost k F)
    (hH : ∀ r', F r' = F r → H r' = H r) :
  r.ReadsAtMost k H
  := by
  obtain ⟨points, hlength, hpoints⟩ := h
  refine ⟨points, hlength, ?_⟩
  intro r' hr'
  apply hH r' (hpoints r' hr')

theorem map {F : Residuals α n m → β} (h : r.ReadsAtMost k F) (g : β → γ) :
  r.ReadsAtMost k fun r => g (F r)
  := h.congr fun _ => congrArg g

/-- What is read may depend on what was read before. -/
theorem bind {F : Residuals α n m → β} {G : β → Residuals α n m → γ} (h : r.ReadsAtMost k F)
    (h' : r.ReadsAtMost k' (G (F r))) :
  r.ReadsAtMost (k + k') fun r => G (F r) r
  := by
  obtain ⟨points, hlength, hpoints⟩ := h
  obtain ⟨points', hlength', hpoints'⟩ := h'
  refine ⟨points ++ points', ?_, ?_⟩
  · rw [List.length_append]
    exact Nat.add_le_add hlength hlength'
  · intro r' hr'
    rw [List.forall_mem_append] at hr'
    show G (F r') r' = G (F r) r
    rw [hpoints r' hr'.1, hpoints' r' hr'.2]

theorem map₂ {δ : Type} {F : Residuals α n m → β} {G : Residuals α n m → γ}
    (h : r.ReadsAtMost k F) (h' : r.ReadsAtMost k' G) (g : β → γ → δ) :
  r.ReadsAtMost (k + k') fun r => g (F r) (G r)
  := h.bind (G := fun b r => g b (G r)) (h'.map (g (F r)))

theorem mono {F : Residuals α n m → β} (h : r.ReadsAtMost k F) (hk : k ≤ k') :
  r.ReadsAtMost k' F
  := by
  obtain ⟨points, hlength, hpoints⟩ := h
  exact ⟨points, hlength.trans hk, hpoints⟩

/-- The entries of a vector read as often as all of them together. -/
theorem ofFn {p : Nat} {F : Fin p → Residuals α n m → β} (h : ∀ j, r.ReadsAtMost k (F j)) :
  r.ReadsAtMost (p * k) fun r => Vec.ofFn fun j => F j r
  := by
  choose points hlength hpoints using h
  refine ⟨(List.finRange p).flatMap points, ?_, ?_⟩
  · have hsum := List.sum_le_card_nsmul ((List.finRange p).map fun j => (points j).length) k (by
      intro l hl
      obtain ⟨j, -, rfl⟩ := List.mem_map.mp hl
      exact hlength j)
    rw [List.length_map, List.length_finRange, Nat.nsmul_eq_mul] at hsum
    rw [List.length_flatMap]
    exact hsum
  · intro r' hr'
    ext j
    rw [Vec.get_ofFn, Vec.get_ofFn]
    apply hpoints j r'
    intro x hx
    apply hr' x (List.mem_flatMap.mpr ⟨j, List.mem_finRange j, hx⟩)

/-! ### Sequences -/

theorem bindExcept {ε : Type} {x : Residuals α n m → Except ε β}
    {f : β → Residuals α n m → Except ε γ} (h : r.ReadsAtMost k x)
    (h' : ∀ b, r.ReadsAtMost k' (f b)) :
  r.ReadsAtMost (k + k') fun r => x r >>= fun b => f b r
  := by
  apply h.bind (G := fun y r => y >>= fun b => f b r)
  cases x r with
  | error e => apply const
  | ok b => exact h' b

theorem bindRun {x : Residuals α n m → Run α β} {f : β → Residuals α n m → Run α γ}
    (h : r.ReadsAtMost k x) (h' : ∀ b, r.ReadsAtMost k' (f b)) :
  r.ReadsAtMost (k + k') fun r => x r >>= fun b => f b r
  := by
  apply h.bind (G := fun y r => y >>= fun b => f b r)
  cases hx : (x r).outcome with
  | error e =>
    simp only [Run.bind_of_error hx]
    apply const
  | ok b =>
    simp only [Run.bind_of_ok hx]
    exact (h' b).map fun y => (⟨y.outcome, (x r).events ++ y.events⟩ : Run α γ)

/-- An iteration reads as often as its steps, in any monad in which a sequence reads as often as its
parts. -/
theorem iterate {M : Type → Type} [Monad M] {σ ρ : Type}
    (hbind : ∀ {β γ : Type} {k k' : Nat} {x : Residuals α n m → M β}
      {f : β → Residuals α n m → M γ}, r.ReadsAtMost k x → (∀ b, r.ReadsAtMost k' (f b)) →
        r.ReadsAtMost (k + k') fun r => x r >>= fun b => f b r)
    {step : Residuals α n m → Nat → σ → M (Round σ ρ)}
    (hstep : ∀ i s, r.ReadsAtMost k fun r => step r i s) (exhausted : σ → M ρ) (budget i : Nat)
    (s : σ) :
  r.ReadsAtMost (budget * k) fun r => Numerics.iterate (step r) exhausted budget i s
  := by
  induction budget generalizing i s with
  | zero => apply const
  | succ budget ih =>
    rw [Nat.succ_mul, Nat.add_comm]
    apply hbind (hstep i s) (f := fun round r => match round with
      | .next s' => Numerics.iterate (step r) exhausted budget (i + 1) s'
      | .done result => pure result)
    intro round
    cases round with
    | next s' => apply ih
    | done result => apply const

end ReadsAtMost

end

/-! ### Equations and costs -/

variable {α : Type} [RealScalar α] {n m : Nat} (r : Residuals α n m)

theorem readsAtMost_cost (w : Vec α m) (x : Vec α n) :
  r.ReadsAtMost 1 fun r => r.cost w x
  := (ReadsAtMost.eval r x).map fun v => Fin.foldl m (fun acc i => acc + w i * v i * v i) 0

theorem readsAtMost_columnQuotient (x : Vec α n) (j : Fin n) (h : α) :
  r.ReadsAtMost 2 fun r => columnQuotient r.eval x j h
  := (ReadsAtMost.eval r (x.ahead j h)).map₂ (ReadsAtMost.eval r (x.behind j h)) fun v v' =>
    (v - v') * (1 / (h + h))

theorem readsAtMost_extrapolate (x : Vec α n) (j : Fin n) (h : α) (differencing : Differencing) :
  r.ReadsAtMost 6 fun r => extrapolate (columnQuotient r.eval x j) h differencing
  := by
  cases differencing with
  | central => apply (r.readsAtMost_columnQuotient x j h).mono (by decide)
  | ridders =>
    have hcoarse := r.readsAtMost_columnQuotient x j (h * nat 2)
    have hmiddle := r.readsAtMost_columnQuotient x j h
    have hfine := r.readsAtMost_columnQuotient x j (h / nat 2)
    let third : α := 1 / nat 3
    exact hcoarse.map₂ (hmiddle.map₂ hfine Prod.mk) fun coarse others =>
      ((others.2 * (nat 4 : α) - others.1) * third * (nat 16 : α)
        - (others.1 * (nat 4 : α) - coarse) * third) * (1 / nat 15 : α)

/-- A Jacobian reads at most six times along each axis. -/
theorem readsAtMost_jacobian (x : Vec α n) (options : Options α) :
  r.ReadsAtMost (n * 6) fun r => jacobian r.eval x options
  := by
  have hcolumns := ReadsAtMost.ofFn fun j =>
    r.readsAtMost_extrapolate x j options.spacing options.differencing
  apply hcolumns.map Mat.ofCols

theorem readsAtMost_ofAll (x : Vec α n) (w : Vec α m) (options : Options α) :
  r.ReadsAtMost (n * 6 + 1) fun r => NormalEquations.ofAll r x w options
  := (r.readsAtMost_jacobian x options).map₂ (ReadsAtMost.eval r x) fun jac v =>
    Fin.foldl m (fun (e : NormalEquations α n) i => e.addRow (jac.row i) (v i) (w i)) .empty

end Residuals

/-! ### Damped fits -/

namespace LevenbergMarquardt

variable {α : Type} [RealScalar α] {n m : Nat} (r : Residuals α n m) (w : Vec α m)
  (options : Options α)

theorem readsAtMost_tryStep (e : NormalEquations α n) (s : State α n) (damping : α) :
  r.ReadsAtMost 1 fun r => tryStep r w options e s damping
  := by
  cases hd : (e.damped damping).solve with
  | error error =>
    simp only [tryStep, hd]
    apply Residuals.ReadsAtMost.const
  | ok d =>
    apply (r.readsAtMost_cost w (s.x + d)).congr
    intro r' hcost
    simp only [tryStep, hd, bind, Except.bind, hcost]

theorem readsAtMost_findStep (e : NormalEquations α n) (s : State α n) :
  r.ReadsAtMost options.dampingRounds fun r => findStep r w options e s
  := by
  rw [← Nat.mul_one options.dampingRounds]
  apply Residuals.ReadsAtMost.iterate Residuals.ReadsAtMost.bindExcept
  intro _ damping
  apply readsAtMost_tryStep

theorem readsAtMost_step (k : Nat) (s : State α n) :
  r.ReadsAtMost (n * 6 + 1 + options.dampingRounds) fun r => step r w options k s
  := by
  have hequations := r.readsAtMost_ofAll s.x w options
  have hfound := readsAtMost_findStep r w options (.ofAll r s.x w options) s
  apply (hequations.bind (G := fun e r => (e, findStep r w options e s)) (hfound.map _)).congr
  intro r' h
  obtain ⟨he, hf⟩ := Prod.mk.inj h
  rw [he] at hf
  simp only [step, he, hf]

/-- A damped fit reads as often as its budgets allow. -/
theorem readsAtMost_fit (x₀ : Vec α n) :
  r.ReadsAtMost (1 + options.iterations * (n * 6 + 1 + options.dampingRounds))
    fun r => fit r w x₀ options
  := by
  apply (r.readsAtMost_cost w x₀).bind
    (G := fun cost r => iterate (step r w options)
      (fun s => return ⟨s.x, s.cost, options.iterations, false⟩)
      options.iterations 0 ⟨x₀, cost, options.damping⟩)
  apply Residuals.ReadsAtMost.iterate Residuals.ReadsAtMost.bindRun
  intro k s
  apply readsAtMost_step

end LevenbergMarquardt

end Numerics
