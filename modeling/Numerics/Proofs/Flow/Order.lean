import Mathlib.Algebra.Order.Field.Basic
import Mathlib.Data.Nat.Factorial.Basic
import Mathlib.Tactic.IntervalCases
import Mathlib.Tactic.NormNum
import Mathlib.Tactic.Ring
import Numerics.Proofs.Flow.Stages
import Numerics.Proofs.Scalar.Exact

/-!
# The order of a method on linear systems

On the system `VectorField.affine a g`, whose slope at `x` is `a * x + g`, every explicit method of
`s` stages takes a step along the vectors `a ^ k * (a * x + g)` with `k < s`. How far it goes along
each of them is told by the tableau alone, in `Tableau.chainWeight`: the weights of the stages, each
times the couplings along all chains of `k` stages below it.

A method follows the Taylor polynomial of the solution to the degree `s` if its chain weights are
the reciprocals of the factorials. Those of the midpoint rule, of Kutta's rule and of the classical
rule are.
-/

namespace Numerics

open Matrix

variable {α : Type} [ExactScalar α] {n s : Nat}

/-- The linear system whose slope at `x` is `a * x + g`, at any time. -/
def VectorField.affine (a : Mat α n n) (g : Vec α n) : VectorField α n :=
  fun _ x => a.mulVec x + g

/-- The Taylor polynomial of degree `p`, at the time `h` after the start, of the solution of the
linear system that starts from `x`. -/
def taylor (a : Mat α n n) (g x : Vec α n) (h : α) (p : Nat) : Vec α n :=
  Vec.ofFn fun c => x c
    + ∑ k ∈ Finset.range p,
        h ^ (k + 1) / (k + 1).factorial * (a.toMatrix ^ k *ᵥ (a.mulVec x + g).toFun) c

namespace Tableau

/-! ### Chains of stages -/

/-- The sum, over all chains of `k` stages that go down from the stage `i`, of the products of the
couplings along the chain. -/
def chain (tab : Tableau α s) : Nat → Fin s → α
  | 0, _ => 1
  | k + 1, i => ∑ j ∈ Finset.Iio i, tab.coupling i j * tab.chain k j

/-- The sum of the chains of `k` stages that go down from any stage, each times the weight of that
stage. -/
def chainWeight (tab : Tableau α s) (k : Nat) : α :=
  ∑ i, tab.weights i * tab.chain k i

theorem chain_zero (tab : Tableau α s) (i : Fin s) :
  tab.chain 0 i = 1
  := rfl

theorem chain_succ (tab : Tableau α s) (k : Nat) (i : Fin s) :
  tab.chain (k + 1) i = ∑ j, if j < i then tab.coupling i j * tab.chain k j else 0
  := by
  rw [chain, ← Finset.filter_gt_eq_Iio, Finset.sum_filter]

/-- There are no more stages below a stage than its number says. -/
theorem chain_eq_zero (tab : Tableau α s) {k : Nat} {i : Fin s} (h : i.val < k) :
  tab.chain k i = 0
  := by
  induction k generalizing i with
  | zero => exact absurd h (Nat.not_lt_zero _)
  | succ k ih =>
    apply Finset.sum_eq_zero
    intro j hj
    have hji : j < i := Finset.mem_Iio.mp hj
    rw [ih (by omega), mul_zero]

/-! ### Steps on linear systems -/

section

variable (tab : Tableau α s) (a : Mat α n n) (g : Vec α n) (t : α) (x : Vec α n) (h : α)

theorem toFun_look (f : VectorField α n) (i : Fin s) :
  (tab.look f t x h i).toFun
    = x.toFun + ∑ j ∈ Finset.Iio i, (h * tab.coupling i j) • (tab.slope f t x h j).toFun
  := by
  funext c
  rw [look, Vec.toFun_apply, Vec.get_foldBelow_add, Pi.add_apply, Finset.sum_apply]
  congr 1
  apply Finset.sum_congr rfl
  intro j _
  rw [Vec.get_mul, Pi.smul_apply, smul_eq_mul, mul_comm, Vec.toFun_apply]

/-- The slope at a stage, in powers of `h` times the matrix. -/
theorem toFun_slope_affine (i : Fin s) :
  (tab.slope (.affine a g) t x h i).toFun
    = ∑ k ∈ Finset.range s,
        (h ^ k * tab.chain k i) • (a.toMatrix ^ k *ᵥ (a.mulVec x + g).toFun)
  := by
  induction i using WellFoundedLT.induction with
  | ind i ih =>
    set v := (a.mulVec x + g).toFun with hv
    have hterm : ∀ j ∈ Finset.Iio i,
        a.toMatrix *ᵥ ((h * tab.coupling i j) • (tab.slope (.affine a g) t x h j).toFun)
          = ∑ k ∈ Finset.range s,
              (h ^ (k + 1) * (tab.coupling i j * tab.chain k j)) • (a.toMatrix ^ (k + 1) *ᵥ v) := by
      intro j hj
      rw [ih j (Finset.mem_Iio.mp hj), Finset.smul_sum, mulVec_sum]
      apply Finset.sum_congr rfl
      intro k _
      rw [smul_smul, mulVec_smul, mulVec_mulVec, ← pow_succ']
      congr 1
      ring
    calc (tab.slope (.affine a g) t x h i).toFun
      _ = v + ∑ j ∈ Finset.Iio i,
            a.toMatrix *ᵥ ((h * tab.coupling i j) • (tab.slope (.affine a g) t x h j).toFun) := by
        rw [slope_eq, VectorField.affine, Vec.toFun_add, Mat.toFun_mulVec, toFun_look, mulVec_add,
          mulVec_sum, hv, Vec.toFun_add, Mat.toFun_mulVec, add_right_comm]
      _ = v + ∑ k ∈ Finset.range s,
            (h ^ (k + 1) * tab.chain (k + 1) i) • (a.toMatrix ^ (k + 1) *ᵥ v) := by
        rw [Finset.sum_congr rfl hterm, Finset.sum_comm]
        congr 1
        apply Finset.sum_congr rfl
        intro k _
        rw [← Finset.sum_smul, ← Finset.mul_sum, chain]
      _ = ∑ k ∈ Finset.range (s + 1), (h ^ k * tab.chain k i) • (a.toMatrix ^ k *ᵥ v) := by
        rw [Finset.sum_range_succ', chain, pow_zero, pow_zero, mul_one, one_smul, one_mulVec,
          add_comm]
      _ = ∑ k ∈ Finset.range s, (h ^ k * tab.chain k i) • (a.toMatrix ^ k *ᵥ v) := by
        rw [Finset.sum_range_succ, chain_eq_zero tab i.isLt, mul_zero, zero_smul, add_zero]

/-- A step, in powers of `h` times the matrix. -/
theorem get_advance_affine (c : Fin n) :
  tab.advance (.affine a g) t x h c
    = x c + ∑ k ∈ Finset.range s,
        h ^ (k + 1) * tab.chainWeight k * (a.toMatrix ^ k *ᵥ (a.mulVec x + g).toFun) c
  := by
  have hslope : ∀ i, tab.slope (.affine a g) t x h i c
      = ∑ k ∈ Finset.range s,
          h ^ k * tab.chain k i * (a.toMatrix ^ k *ᵥ (a.mulVec x + g).toFun) c := by
    intro i
    have hi := congrFun (toFun_slope_affine tab a g t x h i) c
    rw [Finset.sum_apply] at hi
    exact hi
  rw [advance_eq, Vec.get_add, Vec.get_mul, Vec.get_foldl_add, Vec.get_zero, zero_add]
  congr 1
  simp only [Vec.get_mul, hslope, Finset.sum_mul]
  rw [Finset.sum_comm]
  apply Finset.sum_congr rfl
  intro k _
  rw [chainWeight, Finset.mul_sum, Finset.sum_mul]
  apply Finset.sum_congr rfl
  intro i _
  ring

/-- A method whose chain weights are the reciprocals of the factorials follows the Taylor
polynomial. -/
theorem advance_affine (hweight : ∀ k < s, tab.chainWeight k = 1 / (k + 1).factorial) :
  tab.advance (.affine a g) t x h = taylor a g x h s
  := by
  ext c
  rw [get_advance_affine, taylor, Vec.get_ofFn]
  congr 1
  apply Finset.sum_congr rfl
  intro k hk
  rw [hweight k (Finset.mem_range.mp hk), mul_one_div]

end

/-! ### The rules -/

theorem chainWeight_midpoint {k : Nat} (hk : k < 2) :
  (midpoint : Tableau α 2).chainWeight k = 1 / (k + 1).factorial
  := by
  interval_cases k <;>
    simp [chainWeight, chain_zero, chain_succ, midpoint, Fin.sum_univ_succ, Vec.get, Mat.get,
      Mat.row]

theorem chainWeight_kutta {k : Nat} (hk : k < 3) :
  (kutta : Tableau α 3).chainWeight k = 1 / (k + 1).factorial
  := by
  interval_cases k <;>
    simp [chainWeight, chain_zero, chain_succ, kutta, Fin.sum_univ_succ, Vec.get, Mat.get, Mat.row,
      Nat.factorial] <;>
    norm_num [ratio_eq]

theorem chainWeight_classical {k : Nat} (hk : k < 4) :
  (classical : Tableau α 4).chainWeight k = 1 / (k + 1).factorial
  := by
  interval_cases k <;>
    simp [chainWeight, chain_zero, chain_succ, classical, Fin.sum_univ_succ, Vec.get, Mat.get,
      Mat.row, Nat.factorial] <;>
    norm_num [ratio_eq]

end Tableau

namespace Integrator

/-- The step of an integrator that was just started on a linear system, by a method whose chain
weights are the reciprocals of the factorials. -/
theorem step_affine {tab : Tableau α s}
    (hweight : ∀ k < s, tab.chainWeight k = 1 / (k + 1).factorial) (a : Mat α n n) (g x : Vec α n)
    (t h : α) :
  ∃ r, ((unstarted (.affine a g) tab).start t x).step h = .ok r
    ∧ r.time = t + h ∧ r.state = taylor a g x h s
  := by
  refine ⟨_, rfl, rfl, ?_⟩
  exact Tableau.advance_affine tab a g t x h hweight

/-- For every matrix `a`, every `g`, every state `x`, every time `t` and every length `h` of a step,
of any sign, a step on the system `a * x + g` takes the midpoint rule, Kutta's rule and the
classical rule to the Taylor polynomial of degree two, three and four. -/
theorem step_follows_taylor (a : Mat α n n) (g x : Vec α n) (t h : α) :
  (∃ r, ((unstarted (.affine a g) .midpoint).start t x).step h = .ok r
      ∧ r.time = t + h ∧ r.state = taylor a g x h 2)
    ∧ (∃ r, ((unstarted (.affine a g) .kutta).start t x).step h = .ok r
      ∧ r.time = t + h ∧ r.state = taylor a g x h 3)
    ∧ ∃ r, ((unstarted (.affine a g) .classical).start t x).step h = .ok r
      ∧ r.time = t + h ∧ r.state = taylor a g x h 4
  := by
  constructor
  · exact step_affine (fun _ => Tableau.chainWeight_midpoint) a g x t h
  constructor
  · exact step_affine (fun _ => Tableau.chainWeight_kutta) a g x t h
  · exact step_affine (fun _ => Tableau.chainWeight_classical) a g x t h

end Integrator

end Numerics
