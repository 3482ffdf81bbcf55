import Mathlib.Algebra.Order.Field.Basic
import Mathlib.Tactic.GCongr
import Mathlib.Tactic.Positivity
import Numerics.Proofs.LeastSquares.Median
import Numerics.Proofs.LeastSquares.Reweighting
import Numerics.Proofs.Scalar.Power

/-!
# Robust fits keep the majority

A weight lies between zero and one, and does not grow with the size of the residual. The residuals
are divided by a multiple of their median absolute value, or by more. So half of them, rounded up,
are scaled to at most one over the factor, `1 / 1.4826`. If the threshold of the Huber loss is no
less than that, then these residuals keep their full weight. If the threshold of the Tukey loss is
greater than that, then they keep the weight of the largest of them, `Robust.tukeyFloor`.

A median of zero does not change this, since the divisor is at least the tolerance.
-/

namespace Numerics

variable {α : Type} [ExactScalar α] {n m : Nat}

/-! ### Weights -/

namespace Loss

variable {u k c : α}

/-- The weight `ω` lies between zero and one, and does not grow with the absolute value. -/
structure Discounts (ω : α → α) : Prop where
  nonneg : ∀ u, 0 ≤ ω u
  le_one : ∀ u, ω u ≤ 1
  antitone : ∀ u v, |u| ≤ |v| → ω v ≤ ω u

theorem huberWeight_of_le (h : |u| ≤ k) :
  huberWeight u k = 1
  := by
  rw [huberWeight, abs_eq, if_pos h]

theorem huberWeight_of_lt (h : k < |u|) :
  huberWeight u k = k / |u|
  := by
  rw [huberWeight, abs_eq, if_neg h.not_ge]

theorem tukeyWeight_of_lt (h : |u| < c) :
  tukeyWeight u c = (1 - (|u| / c) ^ 2) ^ 2
  := by
  rw [tukeyWeight, abs_eq, if_pos h, natPower_eq, div_pow, div_pow, sq_abs]
  exact (sq _).symm

theorem tukeyWeight_of_le (h : c ≤ |u|) :
  tukeyWeight u c = 0
  := by
  rw [tukeyWeight, abs_eq, if_neg h.not_gt]

theorem discounts_huber (hk : 0 ≤ k) :
  Discounts fun u => huberWeight u k
  := by
  have hle (u : α) : huberWeight u k ≤ 1 := by
    rcases le_or_gt |u| k with h | h
    · rw [huberWeight_of_le h]
    · rw [huberWeight_of_lt h]
      apply div_le_one_of_le₀ h.le (abs_nonneg u)
  refine ⟨?_, hle, ?_⟩
  · intro u
    rcases le_or_gt |u| k with h | h
    · rw [huberWeight_of_le h]
      exact zero_le_one
    · rw [huberWeight_of_lt h]
      apply div_nonneg hk (abs_nonneg u)
  · intro u v huv
    rcases le_or_gt |u| k with h | h
    · rw [huberWeight_of_le h]
      apply hle v
    · rw [huberWeight_of_lt h, huberWeight_of_lt (h.trans_le huv)]
      apply div_le_div_of_nonneg_left hk (hk.trans_lt h) huv

/-- Below its threshold the Tukey weight falls. -/
theorem tukeyWeight_le_tukeyWeight {v : α} (huv : |u| ≤ |v|) (hv : |v| < c) :
  tukeyWeight v c ≤ tukeyWeight u c
  := by
  have hc : 0 < c := (abs_nonneg v).trans_lt hv
  have hratio : |v| / c ≤ 1 := div_le_one_of_le₀ hv.le hc.le
  rw [tukeyWeight_of_lt hv, tukeyWeight_of_lt (huv.trans_lt hv)]
  have hsquare : (|v| / c) ^ 2 ≤ 1 := pow_le_one₀ (by positivity) hratio
  apply pow_le_pow_left₀ (sub_nonneg.mpr hsquare)
  gcongr

/-- Below its threshold the Tukey weight is positive. -/
theorem tukeyWeight_pos (h : |u| < c) :
  0 < tukeyWeight u c
  := by
  have hratio : |u| / c < 1 := (div_lt_one ((abs_nonneg u).trans_lt h)).mpr h
  have hnonneg : 0 ≤ |u| / c := div_nonneg (abs_nonneg u) ((abs_nonneg u).trans h.le)
  rw [tukeyWeight_of_lt h]
  apply pow_pos
  apply sub_pos.mpr
  apply pow_lt_one₀ hnonneg hratio two_ne_zero

theorem tukeyWeight_zero (hc : 0 < c) :
  tukeyWeight 0 c = 1
  := by
  have hzero : |(0 : α)| < c := by
    rw [abs_zero]
    exact hc
  rw [tukeyWeight_of_lt hzero, abs_zero, zero_div, zero_pow two_ne_zero, sub_zero, one_pow]

theorem discounts_tukey (c : α) :
  Discounts fun u => tukeyWeight u c
  := by
  have hnonneg (u : α) : 0 ≤ tukeyWeight u c := by
    rcases lt_or_ge |u| c with h | h
    · apply (tukeyWeight_pos h).le
    · rw [tukeyWeight_of_le h]
  refine ⟨hnonneg, ?_, ?_⟩
  · intro u
    rcases lt_or_ge |u| c with h | h
    · rw [← tukeyWeight_zero ((abs_nonneg u).trans_lt h)]
      apply tukeyWeight_le_tukeyWeight _ h
      rw [abs_zero]
      apply abs_nonneg
    · rw [tukeyWeight_of_le h]
      exact zero_le_one
  · intro u v huv
    rcases lt_or_ge |v| c with h | h
    · apply tukeyWeight_le_tukeyWeight huv h
    · rw [tukeyWeight_of_le h]
      apply hnonneg u

theorem discounts_weight {options : Options α} (h : 0 ≤ options.huberThreshold) (loss : Loss) :
  Discounts fun u => loss.weight options u
  := by
  cases loss with
  | squared => exact ⟨fun _ => zero_le_one, fun _ => le_rfl, fun _ _ _ => le_rfl⟩
  | huber => apply discounts_huber h
  | tukey => apply discounts_tukey

end Loss

/-! ### Scaled residuals -/

namespace Robust

variable {options : Options α} {v w : Vec α m} {d spread : α}

theorem medianFactor_eq :
  (medianFactor : α) = 14826 / 10000
  := by
  rw [medianFactor, ratio_eq]
  norm_num

theorem medianFactor_pos :
  (0 : α) < medianFactor
  := by
  rw [medianFactor_eq]
  positivity

/-- The least weight of the majority under the Tukey loss with the threshold `c`. -/
def tukeyFloor (c : α) : α :=
  (1 - (1 / (medianFactor * c)) ^ 2) ^ 2

theorem abs_one_div_medianFactor :
  |(1 / medianFactor : α)| = 1 / medianFactor
  := abs_of_pos (one_div_pos.mpr medianFactor_pos)

/-- The least weight of the majority is that of a residual scaled to one over the factor. -/
theorem tukeyFloor_eq {c : α} (h : |1 / medianFactor| < c) :
  tukeyFloor c = Loss.tukeyWeight (1 / medianFactor) c
  := by
  rw [Loss.tukeyWeight_of_lt h, abs_one_div_medianFactor, tukeyFloor, div_div]

theorem tukeyFloor_pos {c : α} (h : 1 / medianFactor < c) :
  0 < tukeyFloor c
  := by
  rw [← abs_one_div_medianFactor] at h
  rw [tukeyFloor_eq h]
  apply Loss.tukeyWeight_pos h

theorem tukeyFloor_le {c u : α} (h : 1 / medianFactor < c) (hu : |u| ≤ 1 / medianFactor) :
  tukeyFloor c ≤ Loss.tukeyWeight u c
  := by
  rw [← abs_one_div_medianFactor] at h hu
  rw [tukeyFloor_eq h]
  apply Loss.tukeyWeight_le_tukeyWeight hu h

/-- Every vector of residuals has a scale. -/
theorem exists_scale (options : Options α) (v : Vec α m) :
  ∃ d, medianAbs v = .ok d ∧ scale options v = .ok (max (medianFactor * d) options.tolerance)
  := by
  obtain ⟨ys, hys, -⟩ := exists_medianAbs v
  use middle ys, hys
  rw [scale, hys, ← maxNum_eq]
  rfl

/-- A residual up to the median is scaled to at most one over the factor. -/
theorem abs_div_le (htol : 0 < options.tolerance) {x : α} (hx : |x| ≤ d) :
  |x / max (medianFactor * d) options.tolerance| ≤ 1 / medianFactor
  := by
  have hscale : 0 < max (medianFactor * d) options.tolerance := htol.trans_le (le_max_right _ _)
  rw [abs_div, abs_of_pos hscale, div_le_div_iff₀ hscale medianFactor_pos, one_mul]
  calc |x| * medianFactor
      ≤ d * medianFactor := by gcongr; exact medianFactor_pos.le
    _ = medianFactor * d := mul_comm _ _
    _ ≤ max (medianFactor * d) options.tolerance := le_max_left _ _

/-- What half of the scaled residuals, rounded up, have in common. -/
theorem le_card_of_scale (htol : 0 < options.tolerance) (h : scale options v = .ok spread)
    {P : α → Prop} [DecidablePred P] (hP : ∀ u, |u| ≤ 1 / medianFactor → P u) :
  (m + 1) / 2 ≤ (Finset.univ.filter fun i => P (v i / spread)).card
  := by
  obtain ⟨d, hd, hscale⟩ := exists_scale options v
  obtain rfl := Except.ok.inj (hscale.symm.trans h)
  apply (le_card_of_medianAbs hd).trans
  apply Finset.card_le_card
  apply Finset.monotone_filter_right
  intro i _ hi
  apply hP _ (abs_div_le htol hi)

/-- The weights `w` of the residuals `v` lie between zero and one and do not grow with the absolute
value. Half of them, rounded up, are full weights under the Huber loss, and are no less than a
positive bound under the Tukey loss, if the threshold is large enough. -/
structure KeepsMajority (options : Options α) (v w : Vec α m) : Prop where
  nonneg : ∀ i, 0 ≤ w i
  le_one : ∀ i, w i ≤ 1
  antitone : ∀ i j, |v i| ≤ |v j| → w j ≤ w i
  huber : options.loss = .huber → 1 / medianFactor ≤ options.huberThreshold →
    (m + 1) / 2 ≤ (Finset.univ.filter fun i => w i = 1).card
  tukey : options.loss = .tukey → 1 / medianFactor < options.tukeyThreshold →
    0 < tukeyFloor options.tukeyThreshold
      ∧ (m + 1) / 2 ≤ (Finset.univ.filter fun i => tukeyFloor options.tukeyThreshold ≤ w i).card

theorem weights_keepMajority (htol : 0 < options.tolerance) (hhuber : 0 < options.huberThreshold)
    (h : scale options v = .ok spread) :
  KeepsMajority options v (weights options spread v)
  := by
  have hdiscounts := Loss.discounts_weight hhuber.le options.loss
  simp only [weights]
  constructor
  · intro i
    rw [Vec.get_ofFn]
    apply hdiscounts.nonneg
  · intro i
    rw [Vec.get_ofFn]
    apply hdiscounts.le_one
  · intro i j hij
    rw [Vec.get_ofFn, Vec.get_ofFn]
    apply hdiscounts.antitone
    rw [abs_div, abs_div]
    gcongr
  · intro hloss hthreshold
    simp only [Vec.get_ofFn, hloss]
    apply le_card_of_scale (P := fun u => Loss.huber.weight options u = 1) htol h
    intro u hu
    apply Loss.huberWeight_of_le (hu.trans hthreshold)
  · intro hloss hthreshold
    use tukeyFloor_pos hthreshold
    simp only [Vec.get_ofFn, hloss]
    apply le_card_of_scale (P := fun u => _ ≤ Loss.tukey.weight options u) htol h
    intro u hu
    apply tukeyFloor_le hthreshold hu

/-- A round that ends its weighted fit goes on to new weights. -/
theorem exists_refitted {r : Residuals α n m} {s : State α n m} {inner : FitResult α n}
    (h : (fitWeighted r s.weights s.x options).outcome = .ok inner) :
  ∃ w, Refitted r options s inner w
  := by
  obtain ⟨d, -, hscale⟩ := exists_scale options (r.eval inner.x)
  exact ⟨_, h, _, hscale, rfl⟩

theorem Refitted.keepsMajority {r : Residuals α n m} {s : State α n m} {inner : FitResult α n}
    (h : Refitted r options s inner w) (htol : 0 < options.tolerance)
    (hhuber : 0 < options.huberThreshold) :
  KeepsMajority options (r.eval inner.x) w
  := by
  obtain ⟨spread, hscale, rfl⟩ := h.weighed
  apply weights_keepMajority htol hhuber hscale

/-- The weights that a robust fit comes to keep the majority of the residuals at its point. -/
theorem Visited.keepsMajority {r : Residuals α n m} {x₀ : Vec α n} {k : Nat} {s : State α n m}
    (h : Visited r x₀ options (k + 1) s) (htol : 0 < options.tolerance)
    (hhuber : 0 < options.huberThreshold) :
  KeepsMajority options (r.eval s.x) s.weights
  := by
  cases h with
  | next _ hstep =>
    obtain ⟨inner, w, hrefitted, ⟨-, hdone⟩ | ⟨-, hnext⟩⟩ := step_eq_ok_iff.mp hstep
    · cases hdone
    · cases hnext
      apply hrefitted.keepsMajority htol hhuber

end Robust

open Robust

/-- In exact arithmetic with a positive tolerance and a positive threshold of the Huber loss: every
vector of residuals has a median absolute value, which depends neither on their order nor on their
signs, and half of the residuals, rounded up, are no greater than it. Every round of a robust fit,
from whatever state, that ends its weighted fit has new weights, and these keep the majority of the
residuals there. So do the weights that a robust fit has come to after any number of rounds. -/
theorem reweighting_keeps_majority (r : Residuals α n m) (x₀ : Vec α n) (options : Options α)
    (htol : 0 < options.tolerance) (hhuber : 0 < options.huberThreshold) :
  (∀ v : Vec α m, ∃ d, medianAbs v = .ok d
      ∧ (m + 1) / 2 ≤ (Finset.univ.filter fun i => |v i| ≤ d).card
      ∧ ∀ (w : Vec α m) (σ : Equiv.Perm (Fin m)),
        (∀ i, w i = v (σ i) ∨ w i = -v (σ i)) → medianAbs w = .ok d)
    ∧ (medianFactor : α) = 14826 / 10000
    ∧ (∀ s inner, (fitWeighted r s.weights s.x options).outcome = .ok inner →
      ∃ w, Refitted r options s inner w)
    ∧ (∀ s inner w, Refitted r options s inner w → KeepsMajority options (r.eval inner.x) w)
    ∧ ∀ k s, Visited r x₀ options (k + 1) s → KeepsMajority options (r.eval s.x) s.weights
  := by
  refine ⟨?_, medianFactor_eq, fun s inner => exists_refitted, ?_, ?_⟩
  · intro v
    obtain ⟨ys, hys, -⟩ := exists_medianAbs v
    refine ⟨_, hys, le_card_of_medianAbs hys, ?_⟩
    intro w σ h
    rw [medianAbs_eq h, hys]
  · intro s inner w h
    apply h.keepsMajority htol hhuber
  · intro k s h
    apply h.keepsMajority htol hhuber

/-- A robust fit of a constant to `0`, `0` and `100` with the Huber loss. The first two residuals
keep their full weight in the first round, and the third does not. -/
theorem reweighting_keeps_majority_outlier :
  let r : Residuals ℚ 1 3 := .ofFunction fun x => Vec.ofFn ![x 0, x 0, x 0 - 100]
  let options := huberOptions 10
  0 < options.tolerance ∧ 0 < options.huberThreshold
    ∧ medianAbs (Vec.ofFn ![3, -1, 2] : Vec ℚ 3) = .ok 2
    ∧ medianAbs (Vec.ofFn ![2, 3, 1] : Vec ℚ 3) = .ok 2
    ∧ ∃ s, Visited r 0 options 1 s
      ∧ 2 ≤ (Finset.univ.filter fun i => s.weights i = 1).card
      ∧ s.weights 2 < 1
  := by
  intro r options
  have htol : 0 < options.tolerance := by decide +kernel
  have hhuber : 0 < options.huberThreshold := by decide +kernel
  obtain ⟨hmedians, -, -, -, hrounds⟩ := reweighting_keeps_majority r 0 options htol hhuber
  have hmedian : medianAbs (Vec.ofFn ![3, -1, 2] : Vec ℚ 3) = .ok 2 := by rfl
  refine ⟨htol, hhuber, hmedian, ?_, ?_⟩
  · obtain ⟨d, hd, -, hrearranged⟩ := hmedians (Vec.ofFn ![3, -1, 2])
    rw [hrearranged (Vec.ofFn ![2, 3, 1]) (finRotate 3).symm (by decide), ← hd, hmedian]
  · obtain ⟨round, hround, hlight⟩ : ∃ round, (step r options 0 ⟨0, Vec.fill 1⟩).outcome = .ok round
        ∧ (match round with
          | .next s => decide (s.weights 2 < 1)
          | .done _ => false) = true := by
      apply exists_of_any
      decide +kernel
    cases round with
    | next s =>
      have hs : Visited r 0 options 1 s := .next .start hround
      refine ⟨s, hs, (hrounds 0 s hs).huber rfl ?_, of_decide_eq_true hlight⟩
      decide +kernel
    | done => cases hlight

end Numerics
