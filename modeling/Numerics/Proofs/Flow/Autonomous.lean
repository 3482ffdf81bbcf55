import Mathlib.Algebra.Order.Field.Basic
import Mathlib.Tactic.FinCases
import Mathlib.Tactic.NormNum
import Numerics.Proofs.Flow.Observation

/-!
# The time as a component of the state

A system of `n` equations becomes one of `n + 1` equations that does not look at the time, if the
time is carried along as one more component of slope one: this is `VectorField.clocked`.

A tableau is `Consistent` if its weights sum to one and the couplings of every stage sum to the time
of the stage. Then every stage of a step on the clocked system looks at the time of the same stage
of the given system, in its first component, and at the same state in the others. So the clock shows
the time that the integrator of the given system accumulates apart from its state.
-/

namespace Numerics

variable {α : Type} {n s : Nat}

/-! ### Vectors with one more component -/

namespace Vec

/-- The vector `v` with the entry `a` before its own. -/
def cons (a : α) (v : Vec α n) : Vec α (n + 1) :=
  ofFn (Fin.cons a v.get)

/-- The first entry of `v`. -/
def head (v : Vec α (n + 1)) : α :=
  v ⟨0, n.succ_pos⟩

/-- The entries of `v` after the first one. -/
def tail (v : Vec α (n + 1)) : Vec α n :=
  ofFn fun i => v i.succ

@[simp]
theorem get_cons_zero (a : α) (v : Vec α n) :
  cons a v 0 = a
  := get_ofFn _ 0

@[simp]
theorem get_cons_succ (a : α) (v : Vec α n) (i : Fin n) :
  cons a v i.succ = v i
  := get_ofFn _ i.succ

theorem head_cons (a : α) (v : Vec α n) :
  (cons a v).head = a
  := get_cons_zero a v

@[simp]
theorem tail_cons (a : α) (v : Vec α n) :
  (cons a v).tail = v
  := by
  ext i
  rw [tail, get_ofFn, get_cons_succ]

theorem eq_cons_iff {w : Vec α (n + 1)} {a : α} {v : Vec α n} :
  w = cons a v ↔ w 0 = a ∧ ∀ i : Fin n, w i.succ = v i
  := by
  constructor
  · rintro rfl
    simp
  · rintro ⟨hzero, hsucc⟩
    ext i
    cases i using Fin.cases with
    | zero => rw [hzero, get_cons_zero]
    | succ i => rw [hsucc, get_cons_succ]

variable [ExactScalar α]

/-- Vectors with a first entry of one, added up in some proportion, add the sum of the shares to the
first entry. -/
theorem eq_cons_of_toFun_eq {ι : Type} {stages : Finset ι} {share : ι → α} {v : ι → Vec α n}
    {w : ι → Vec α (n + 1)} (hw : ∀ i ∈ stages, w i = cons 1 (v i)) {t : α} {x y : Vec α n}
    {z : Vec α (n + 1)} (hy : y.toFun = x.toFun + ∑ i ∈ stages, share i • (v i).toFun)
    (hz : z.toFun = (cons t x).toFun + ∑ i ∈ stages, share i • (w i).toFun) :
  z = cons (t + ∑ i ∈ stages, share i) y
  := by
  have hz' : ∀ c, z c = cons t x c + ∑ i ∈ stages, share i * cons 1 (v i) c := by
    intro c
    have hc := congrFun hz c
    rw [Pi.add_apply, Finset.sum_apply] at hc
    rw [← toFun_apply, hc, toFun_apply]
    congr 1
    apply Finset.sum_congr rfl
    intro i hi
    rw [hw i hi]
    rfl
  rw [eq_cons_iff]
  constructor
  · rw [hz']
    simp
  · intro c
    have hc := congrFun hy c
    rw [Pi.add_apply, Finset.sum_apply] at hc
    rw [hz', ← toFun_apply y, hc]
    simp

end Vec

variable [ExactScalar α]

/-- The system `f` with its time as the first component of the state. -/
def VectorField.clocked (f : VectorField α n) : VectorField α (n + 1) :=
  fun _ y => Vec.cons 1 (f y.head y.tail)

theorem VectorField.clocked_cons (f : VectorField α n) (u t : α) (x : Vec α n) :
  f.clocked u (Vec.cons t x) = Vec.cons 1 (f t x)
  := by
  rw [clocked, Vec.head_cons, Vec.tail_cons]

/-! ### Stages and steps -/

namespace Tableau

/-- The weights sum to one, and the couplings of each stage to its time. -/
structure Consistent (tab : Tableau α s) : Prop where
  weights_sum : ∑ i, tab.weights i = 1
  coupling_sum : ∀ i, ∑ j ∈ Finset.Iio i, tab.coupling i j = tab.times i

theorem chain_one (tab : Tableau α s) (i : Fin s) :
  tab.chain 1 i = ∑ j ∈ Finset.Iio i, tab.coupling i j
  := by
  simp only [chain, mul_one]

variable {tab : Tableau α s}

namespace Consistent

variable (f : VectorField α n) (u t : α) (x : Vec α n) (h : α)

/-- A stage that sees the time as a component of the state sees it where it looks. -/
theorem slope_clocked (htab : tab.Consistent) (i : Fin s) :
  tab.slope f.clocked u (Vec.cons t x) h i = Vec.cons 1 (tab.slope f t x h i)
  := by
  induction i using WellFoundedLT.induction with
  | ind i ih =>
    have hlook : tab.look f.clocked u (Vec.cons t x) h i
        = Vec.cons (t + tab.times i * h) (tab.look f t x h i) := by
      rw [Vec.eq_cons_of_toFun_eq (fun j hj => ih j (Finset.mem_Iio.mp hj))
        (toFun_look tab t x h f i) (toFun_look tab u (Vec.cons t x) h f.clocked i),
        ← Finset.mul_sum, htab.coupling_sum, mul_comm]
    rw [slope_eq, slope_eq, hlook, VectorField.clocked_cons]

theorem advance_clocked (htab : tab.Consistent) :
  tab.advance f.clocked u (Vec.cons t x) h = Vec.cons (t + h) (tab.advance f t x h)
  := by
  rw [Vec.eq_cons_of_toFun_eq (fun i _ => htab.slope_clocked f u t x h i)
    (toFun_advance tab f t x h) (toFun_advance tab f.clocked u (Vec.cons t x) h),
    ← Finset.mul_sum, htab.weights_sum, mul_one]

/-- Any number of steps keep the clock and the state together. -/
theorem iterate_step_clocked (htab : tab.Consistent) (p : Moment α n) (k : Nat) :
  ((Moment.step tab f.clocked h)^[k] ⟨u, Vec.cons p.time p.state⟩).state
    = Vec.cons ((Moment.step tab f h)^[k] p).time ((Moment.step tab f h)^[k] p).state
  := by
  induction k generalizing u p with
  | zero => rfl
  | succ k ih =>
    rw [Function.iterate_succ_apply, Function.iterate_succ_apply, Moment.step,
      htab.advance_clocked]
    exact ih (u + h) (p.step tab f h)

end Consistent

/-! ### The rules -/

theorem consistent_midpoint :
  (midpoint : Tableau α 2).Consistent
  := by
  constructor
  · simp [midpoint, Fin.sum_univ_succ, Vec.get]
  · intro i
    rw [← chain_one]
    fin_cases i <;>
      simp [chain_zero, chain_succ, midpoint, Vec.get, Mat.get, Mat.row]

theorem consistent_kutta :
  (kutta : Tableau α 3).Consistent
  := by
  constructor
  · simp [kutta, Fin.sum_univ_succ, Vec.get]
    norm_num [ratio_eq]
  · intro i
    rw [← chain_one]
    fin_cases i <;>
      simp [chain_zero, chain_succ, kutta, Fin.sum_univ_succ, Vec.get, Mat.get, Mat.row]
    norm_num

theorem consistent_classical :
  (classical : Tableau α 4).Consistent
  := by
  constructor
  · simp [classical, Fin.sum_univ_succ, Vec.get]
    norm_num [ratio_eq]
  · intro i
    rw [← chain_one]
    fin_cases i <;>
      simp [chain_zero, chain_succ, classical, Fin.sum_univ_succ, Vec.get, Mat.get, Mat.row]

end Tableau

/-! ### Integrations -/

namespace Integrator

/-- From the time `t` and the state `x` the method `tab` follows the clocked system, whatever its
own time `u`, to the times and the states that it follows `f` to, in steps of any length. -/
def CarriesTime (tab : Tableau α s) (f : VectorField α n) : Prop :=
  ∀ (u t : α) (x : Vec α n) (h : α) (k : Nat),
    ∃ states states',
      ((unstarted f tab).start t x).solve h k = .ok states
        ∧ ((unstarted f.clocked tab).start u (Vec.cons t x)).solve h k = .ok states'
        ∧ states.length = k + 1
        ∧ states'.length = k + 1
        ∧ ∀ i ≤ k, ∃ q q',
            ((unstarted f tab).start t x).steps h i = .ok q
              ∧ ((unstarted f.clocked tab).start u (Vec.cons t x)).steps h i = .ok q'
              ∧ q'.state = Vec.cons q.time q.state
              ∧ states[i]? = some q.state
              ∧ states'[i]? = some q'.state

theorem carriesTime_of_consistent {tab : Tableau α s} (htab : tab.Consistent)
    (f : VectorField α n) :
  CarriesTime tab f
  := by
  intro u t x h k
  refine ⟨_, _, rfl, rfl, length_statesFrom _ _ _ _ _, length_statesFrom _ _ _ _ _, ?_⟩
  intro i hi
  refine ⟨_, _, steps_eq f tab ⟨t, x⟩ h i, steps_eq f.clocked tab ⟨u, Vec.cons t x⟩ h i, ?_, ?_, ?_⟩
  · exact htab.iterate_step_clocked f u h ⟨t, x⟩ i
  · exact getElem?_statesFrom hi
  · exact getElem?_statesFrom hi

/-- In exact arithmetic. Let the weights of a tableau sum to one, and the couplings of each of its
stages to the time of the stage. Then every system, linear or not, may carry its time as a component
of slope one: from the same time and state, whatever time the integrator itself starts from, each
step and each list of steps gives the time of the given system's integrator in the first component
and its state in the others. The midpoint rule, Kutta's rule and the classical rule are such
tableaux. -/
theorem time_carried_as_state :
  (∀ {s : Nat} (tab : Tableau α s),
      ∑ i, tab.weights i = 1 →
      (∀ i, ∑ j ∈ Finset.Iio i, tab.coupling i j = tab.times i) →
      ∀ {n : Nat} (f : VectorField α n), CarriesTime tab f)
    ∧ ∀ {n : Nat} (f : VectorField α n),
      CarriesTime .midpoint f ∧ CarriesTime .kutta f ∧ CarriesTime .classical f
  := by
  constructor
  · intro s tab hweights hcoupling n f
    exact carriesTime_of_consistent ⟨hweights, hcoupling⟩ f
  · intro n f
    refine ⟨?_, ?_, ?_⟩
    · exact carriesTime_of_consistent Tableau.consistent_midpoint f
    · exact carriesTime_of_consistent Tableau.consistent_kutta f
    · exact carriesTime_of_consistent Tableau.consistent_classical f

/-- A clock beside a logistic growth whose rate is the time, in steps of another method of two
stages. -/
theorem time_carried_as_state_growth :
  let tab : Tableau ℚ 2 :=
    ⟨.ofFn ![0, 2 / 3], .ofFn ![1 / 4, 3 / 4], .ofFn ![![0, 5], ![2 / 3, 0]]⟩
  let f : VectorField ℚ 1 := fun t x => Vec.ofFn fun i => t * x i * (1 - x i)
  ∑ i, tab.weights i = 1
    ∧ (∀ i, ∑ j ∈ Finset.Iio i, tab.coupling i j = tab.times i)
    ∧ ∃ q q', ((unstarted f tab).start 1 (Vec.fill 2)).steps (1 / 2) 3 = .ok q
      ∧ ((unstarted f.clocked tab).start 0 (Vec.cons 1 (Vec.fill 2))).steps (1 / 2) 3 = .ok q'
      ∧ q'.state = Vec.cons q.time q.state
  := by
  intro tab f
  have hweights : ∑ i, tab.weights i = 1 := by decide +kernel
  have hcoupling : ∀ i, ∑ j ∈ Finset.Iio i, tab.coupling i j = tab.times i := by decide +kernel
  obtain ⟨hcarries, -⟩ := time_carried_as_state (α := ℚ)
  obtain ⟨states, states', -, -, -, -, hsteps⟩ :=
    hcarries tab hweights hcoupling f 0 1 (Vec.fill 2) (1 / 2) 3
  obtain ⟨q, q', hq, hq', hstate, -⟩ := hsteps 3 le_rfl
  use hweights, hcoupling, q, q'

end Integrator

end Numerics
