import Mathlib.Order.Interval.Set.Basic
import Mathlib.Tactic.Linarith
import Numerics.Proofs.Search.Brent
import Numerics.Proofs.Search.Unimodal

/-!
# How near the search on an interval comes

A function is `UnimodalOn` an interval if it falls strictly up to a point of the interval and rises
strictly from there. The values at two points of the interval then tell on which side of one of them
the minimum lies, and the search always cuts off the other side. So a bracket never loses the
minimum that it `Surrounds`. This needs the trial point and the best point to be two points, which
they are as long as the resolution is positive.

A search that has converged has a bracket neither end of which is farther from the best point than
twice the resolution there, and so the minimum is no farther from it either.
-/

namespace Numerics

/-! ### Unimodal functions on an interval -/

section

variable {α : Type} [ExactScalar α] {f : α → α} {i : Interval α} {x u v : α}

/-- The function `f` falls strictly on the interval `i` up to its point `x`, and rises strictly from
there. -/
structure UnimodalOn (f : α → α) (i : Interval α) (x : α) : Prop where
  lower : i.lower ≤ x
  upper : x ≤ i.upper
  falls : StrictAntiOn f (Set.Icc i.lower x)
  rises : StrictMonoOn f (Set.Icc x i.upper)

theorem Unimodal.unimodalOn (h : Unimodal f x) (hlower : i.lower ≤ x) (hupper : x ≤ i.upper) :
  UnimodalOn f i x
  := by
  use hlower, hupper
  · apply h.falls.mono Set.Icc_subset_Iic_self
  · apply h.rises.mono Set.Icc_subset_Ici_self

/-- The minimum lies above a point where the value is at least the one at a point farther up. -/
theorem UnimodalOn.lt_of_le (h : UnimodalOn f i x) (huv : u < v) (hv : v ≤ i.upper)
    (hf : f v ≤ f u) :
  u < x
  := by
  apply lt_of_not_ge
  intro hx
  exact hf.not_gt (h.rises ⟨hx, huv.le.trans hv⟩ ⟨hx.trans huv.le, hv⟩ huv)

/-- The minimum lies below a point where the value is at least the one at a point farther down. -/
theorem UnimodalOn.gt_of_le (h : UnimodalOn f i x) (hu : i.lower ≤ u) (huv : u < v)
    (hf : f u ≤ f v) :
  x < v
  := by
  apply lt_of_not_ge
  intro hx
  exact hf.not_gt (h.falls ⟨hu, huv.le.trans hx⟩ ⟨hu.trans huv.le, hx⟩ huv)

end

namespace Brent

variable {α : Type} [ExactReal α] {f : α → α} {options : Options α} {i : Interval α}
  {s : State α} {u : Sample α} {tol x : α}

/-! ### Trial points are new -/

theorem resolution_pos (h : 0 < options.tolerance) (s : State α) :
  0 < resolution options s
  := by
  have hroot := sqrt_nonneg (epsilon : α) epsilon_pos.le
  rw [resolution, abs_eq, nat_eq]
  positivity

theorem trial_ne (h : 0 < tol) (s : State α) (d : α) :
  trial tol s d ≠ s.best.x
  := by
  rw [trial, abs_eq]
  split_ifs with hlong
  · have hd : d ≠ 0 := abs_pos.mp (h.trans_le hlong)
    rw [Ne, add_eq_left]
    exact hd
  · exact (lt_add_of_pos_right _ h).ne'
  · exact (sub_lt_self _ h).ne

/-! ### Brackets keep the minimum -/

/-- The bracket lies in the interval `i` and contains `x`. -/
structure Surrounds (i : Interval α) (x : α) (s : State α) : Prop where
  lower_le : i.lower ≤ s.a
  le_upper : s.b ≤ i.upper
  le_minimum : s.a ≤ x
  minimum_le : x ≤ s.b

/-- A new sample other than the best one only cuts off a part of the bracket where the minimum is
not. The end that moves is the one of the two samples with the greater value, and the minimum lies
on the other's side of it. -/
theorem Surrounds.update (h : Surrounds i x s) (hf : UnimodalOn f i x) (hs : Consistent f s)
    (hlower : s.a ≤ u.x) (hupper : u.x ≤ s.b) (hvalue : u.value = f u.x) (hne : u.x ≠ s.best.x) :
  Surrounds i x (update s u)
  := by
  have hbest := hs.lower
  have hbest' := hs.upper
  have hlower' := h.lower_le.trans hlower
  have hupper' := hupper.trans h.le_upper
  have hminimum := h.le_minimum
  have hminimum' := h.minimum_le
  obtain ⟨-, ha, hb⟩ := update_consistent hs hlower hupper hvalue
  use h.lower_le.trans ha, hb.trans h.le_upper
  · rw [update_a, hvalue, hs.value]
    split_ifs with hbetter hside hside
    · have hside' := lt_of_le_of_ne hside hne.symm
      exact (hf.lt_of_le hside' hupper' hbetter).le
    · exact hminimum
    · exact (hf.lt_of_le hside (hbest'.trans h.le_upper) (not_le.mp hbetter).le).le
    · exact hminimum
  · rw [update_b, hvalue, hs.value]
    split_ifs with hbetter hside hside
    · exact hminimum'
    · exact (hf.gt_of_le hlower' (not_le.mp hside) hbetter).le
    · exact hminimum'
    · have hside' := lt_of_le_of_ne (not_lt.mp hside) hne.symm
      exact (hf.gt_of_le (h.lower_le.trans hbest) hside' (not_le.mp hbetter).le).le

theorem Surrounds.advance (h : Surrounds i x s) (hf : UnimodalOn f i x) (hs : Consistent f s)
    (hsettled : settled options s = false) (htol : 0 < options.tolerance) :
  Surrounds i x (advance f options s)
  := by
  obtain ⟨hlower, hupper⟩ := trialPoint_mem hs hsettled htol.le
  have hne := trial_ne (resolution_pos htol s) s (nextSteps (resolution options s) s).last
  exact Surrounds.update (s := { s with last := _, previous := _ })
    ⟨h.lower_le, h.le_upper, h.le_minimum, h.minimum_le⟩ hf ⟨hs.lower, hs.upper, hs.value⟩ hlower
    hupper rfl hne

/-- The states that a search comes to surround the minimum of a unimodal function. -/
theorem Visited.surrounds {k : Nat} (h : Visited f i options k s) (hf : UnimodalOn f i x)
    (htol : 0 < options.tolerance) :
  Surrounds i x s
  := by
  induction h with
  | start => exact ⟨le_rfl, le_rfl, hf.lower, hf.upper⟩
  | next h hstep ih =>
    have hs := Visited.consistent h (hf.lower.trans hf.upper) htol.le
    obtain ⟨hsettled, rfl⟩ := step_eq_next (Except.ok.inj hstep)
    exact ih.advance hf hs hsettled htol

/-! ### Converged searches -/

/-- A bracket is settled if neither end is farther from the best point than twice the resolution. -/
theorem settled_iff (options : Options α) (s : State α) :
  settled options s = true
    ↔ s.best.x - s.a ≤ 2 * resolution options s ∧ s.b - s.best.x ≤ 2 * resolution options s
  := by
  rw [settled, decide_eq_true_eq, middle, abs_eq, half_eq, nat_eq, abs_le, Nat.cast_ofNat]
  constructor
  · rintro ⟨hbelow, habove⟩
    constructor <;> linarith
  · rintro ⟨hlower, hupper⟩
    constructor <;> linarith

theorem abs_sub_le_of_settled (h : settled options s = true) (ha : s.a ≤ x) (hb : x ≤ s.b) :
  |s.best.x - x| ≤ 2 * resolution options s
  := by
  obtain ⟨hlower, hupper⟩ := (settled_iff options s).mp h
  rw [abs_le]
  constructor <;> linarith

/-- A search that has converged ends at the best point of a settled state that it came to. -/
theorem minimum_converged (h : (minimum f i options).converged = true) :
  ∃ k s, Visited f i options k s ∧ settled options s = true ∧ (minimum f i options).x = s.best.x
  := by
  obtain ⟨k, s, hs, ⟨-, hlast⟩ | ⟨-, hlast⟩⟩ := exists_reached_id (ε := SolverError)
    (fun k s => step f options k s) (fun s => ⟨s.best.x, s.best.value, options.iterations, false⟩)
    options.iterations (start f i)
  · rw [← minimum, step] at hlast
    split at hlast
    case isTrue hsettled =>
      have hx := congrArg ScalarResult.x (Round.done.inj hlast)
      exact ⟨k, s, hs, hsettled, hx.symm⟩
    case isFalse => cases hlast
  · rw [minimum, ← hlast] at h
    cases h

/-- A search that comes to a settled state within its budget converges there. -/
theorem Visited.minimum_eq {k : Nat} (h : Visited f i options k s) (hk : k < options.iterations)
    (hsettled : settled options s = true) :
  minimum f i options = ⟨s.best.x, s.best.value, k, true⟩
  := by
  have hstep : step f options k s = .done ⟨s.best.x, s.best.value, k, true⟩ := if_pos hsettled
  apply Except.ok.inj (ε := SolverError)
  rw [minimum, ok_iterate]
  apply Reached.iterate_done h hk (congrArg Except.ok hstep)

/-- A search that converges on an interval on which the function is unimodal ends near the minimum.
-/
theorem abs_minimum_sub_le (hf : UnimodalOn f i x) (htol : 0 < options.tolerance)
    (h : (minimum f i options).converged = true) :
  |(minimum f i options).x - x|
    ≤ 2 * (sqrt epsilon * |(minimum f i options).x| + options.tolerance / 3)
  := by
  obtain ⟨k, s, hvisited, hsettled, hx⟩ := minimum_converged h
  have hs := hvisited.surrounds hf htol
  have hnear := abs_sub_le_of_settled hsettled hs.le_minimum hs.minimum_le
  rw [resolution, abs_eq, nat_eq, ← hx] at hnear
  push_cast at hnear
  exact hnear

/-! ### Brackets that were found -/

/-- A bracket that was found contains the minimum of a unimodal function. -/
theorem unimodalOn_of_bracket {x₀ stride : α} (hf : Unimodal f x)
    (h : bracket f x₀ stride = .ok i) :
  i.lower < i.upper ∧ UnimodalOn f i x
  := by
  have hstride : stride ≠ 0 := by
    rintro rfl
    rw [bracket, beq_eq, decide_eq_true rfl] at h
    cases h
  rw [← Bracket.answer_query, Bracket.query_eq_queryWalk x₀ hstride] at h
  rcases Bracket.queryWalk_encloses_or_descends f Bracket.budget 0 ⟨x₀, stride⟩ hstride with
    ⟨j, hok, hencloses⟩ | ⟨herror, -⟩
  · obtain rfl := Except.ok.inj (h.symm.trans hok)
    obtain ⟨hlower, hupper⟩ := hencloses.contains hf
    exact ⟨hencloses.lower_lt_upper, hf.unimodalOn hlower.le hupper.le⟩
  · cases h.symm.trans herror

/-! ### A search that converges -/

/-- The first step of a search is golden. -/
theorem nextSteps_of_previous_eq_zero (h : s.previous = 0) (htol : 0 ≤ tol) :
  nextSteps tol s = goldenSteps s
  := by
  have hprevious : ¬ abs s.previous > tol := by
    rw [h, abs_eq, abs_zero]
    exact htol.not_gt
  simp only [nextSteps, hprevious, decide_false, Bool.false_and, Bool.false_eq_true, if_false]

/-- A trial point above the best one where the value is greater becomes the upper end. -/
theorem advance_of_worse_above (hvalue : s.best.value < f (trialPoint options s))
    (habove : s.best.x ≤ trialPoint options s) :
  (advance f options s).best = s.best
    ∧ (advance f options s).a = s.a
    ∧ (advance f options s).b = trialPoint options s
  := by
  rw [advance_best, if_neg hvalue.not_ge, advance, update_a, update_b]
  use rfl
  constructor
  · exact (if_neg hvalue.not_ge).trans (if_neg habove.not_gt)
  · exact (if_neg hvalue.not_ge).trans (if_neg habove.not_gt)

/-- A first step upwards that would be too short is as long as the resolution. -/
theorem trialPoint_of_short (hprevious : s.previous = 0) (hmiddle : s.best.x < middle s)
    (hupper : s.best.x ≤ s.b) (hshort : golden * (s.b - s.best.x) < resolution options s) :
  trialPoint options s = s.best.x + resolution options s
  := by
  have hstep : 0 ≤ golden * (s.b - s.best.x) := mul_nonneg golden_pos.le (sub_nonneg.mpr hupper)
  have htol : 0 ≤ resolution options s := hstep.trans hshort.le
  rw [trialPoint, nextSteps_of_previous_eq_zero hprevious htol, goldenSteps,
    if_neg hmiddle.not_ge, trial, abs_eq, abs_of_nonneg hstep, if_neg hshort.not_ge, if_pos hstep]

/-- The best point stays if the value is greater one resolution above it, and then it settles the
bracket if the lower end is near. -/
theorem settled_advance (hnonneg : 0 ≤ resolution options s)
    (htrial : trialPoint options s = s.best.x + resolution options s)
    (hvalue : s.best.value < f (s.best.x + resolution options s))
    (hlower : s.best.x - s.a ≤ 2 * resolution options s) :
  settled options (advance f options s) = true
  := by
  rw [← htrial] at hvalue
  have habove : s.best.x ≤ trialPoint options s := by
    rw [htrial]
    exact le_add_of_nonneg_right hnonneg
  obtain ⟨hbest, ha, hb⟩ := advance_of_worse_above hvalue habove
  have hresolution : resolution options (advance f options s) = resolution options s := by
    rw [resolution, hbest, ← resolution]
  rw [settled_iff, hresolution, hbest, ha, hb, htrial]
  use hlower
  linarith

/-- The square function on the interval from `-1` to `2`, with a wide tolerance: the first trial
point is beyond the minimum, and with it as the new end the bracket is settled. -/
theorem minimum_square_converged :
  (minimum (fun x : ℝ => x * x) ⟨-1, 2⟩ (.standard (27 / 10))).converged = true
  := by
  set f : ℝ → ℝ := fun x => x * x
  set options : Options ℝ := .standard (27 / 10)
  set s := start f ⟨-1, 2⟩
  have ha : s.a = -1 := rfl
  have hb : s.b = 2 := rfl
  have hbest : s.best.x = 1458980337503153 / 10000000000000000 := by
    show -1 + ratio 3819660112501051 10000000000000000 * (2 - -1 : ℝ) = _
    rw [ratio_eq]
    norm_num
  obtain ⟨hres, hres'⟩ : 9 / 10 < resolution options s ∧ resolution options s < 901 / 1000 := by
    have htolerance : options.tolerance = 27 / 10 := rfl
    rw [resolution, sqrt_epsilon, hbest, abs_eq, nat_eq, htolerance]
    norm_num
  have hunsettled : settled options s = false := by
    rw [Bool.eq_false_iff, Ne, settled_iff, hbest, hb]
    rintro ⟨-, hupper⟩
    linarith
  have htrial : trialPoint options s = s.best.x + resolution options s := by
    apply trialPoint_of_short rfl
    · rw [middle, half_eq, hbest, ha, hb]
      norm_num
    · rw [hbest, hb]
      norm_num
    · rw [golden, ratio_eq, hbest, hb]
      norm_num
      linarith
  have hvalue : s.best.value < f (s.best.x + resolution options s) := by
    apply mul_self_lt_mul_self
    · show 0 ≤ s.best.x
      rw [hbest]
      norm_num
    · apply lt_add_of_pos_right
      linarith
  have hvisited : Visited f ⟨-1, 2⟩ options 1 (advance f options s) := by
    apply Reached.next .start
    rw [step, hunsettled]
    rfl
  rw [hvisited.minimum_eq (by decide)]
  apply settled_advance (by linarith) htrial hvalue
  rw [hbest, ha]
  linarith

/-! ### Accuracy -/

/-- With exact scalars and a positive tolerance: if the function is unimodal between the bounds,
with its minimum anywhere between them or at one of them, then a search that has converged ends at a
point no farther from the minimum than twice the resolution at that point. If the function is
unimodal everywhere, then so does a search on any bracket that was found for it. -/
theorem minimizeBetween_near_minimum (f : α → α) (options : Options α)
    (h : 0 < options.tolerance) :
  (∀ a b x, UnimodalOn f (.between a b) x →
      ∃ r, (minimizeBetween f a b options).outcome = .ok r
        ∧ (r.converged = true →
            |r.x - x| ≤ 2 * (sqrt epsilon * |r.x| + options.tolerance / 3)))
    ∧ ∀ x x₀ stride i, Unimodal f x → bracket f x₀ stride = .ok i →
        ∃ r, (minimizeBetween f i.lower i.upper options).outcome = .ok r
          ∧ (r.converged = true →
              |r.x - x| ≤ 2 * (sqrt epsilon * |r.x| + options.tolerance / 3))
  := by
  constructor
  · intro a b x hf
    use minimum f (.between a b) options, outcome_minimizeBetween f a b options
    apply abs_minimum_sub_le hf h
  · intro x x₀ stride i hf hi
    obtain ⟨hlt, hon⟩ := unimodalOn_of_bracket hf hi
    have hbetween : Interval.between i.lower i.upper = i := if_pos hlt.le
    use minimum f i options
    constructor
    · rw [outcome_minimizeBetween, hbetween]
    · apply abs_minimum_sub_le hon h

/-- A parabola, with the bounds in the wrong order and with a bracket that is found for it. -/
theorem minimizeBetween_near_minimum_square :
  let f : ℝ → ℝ := fun x => x * x
  let options : Options ℝ := .standard (27 / 10)
  0 < options.tolerance
    ∧ UnimodalOn f (.between 2 (-1)) 0
    ∧ (∃ r, (minimizeBetween f 2 (-1) options).outcome = .ok r
      ∧ r.converged = true
      ∧ |r.x - 0| ≤ 2 * (sqrt epsilon * |r.x| + options.tolerance / 3))
    ∧ Unimodal f 0
    ∧ bracket f (-1) 1 = .ok ⟨-1, 2⟩
    ∧ ∃ r, (minimizeBetween f (-1) 2 options).outcome = .ok r
      ∧ r.converged = true
      ∧ |r.x - 0| ≤ 2 * (sqrt epsilon * |r.x| + options.tolerance / 3)
  := by
  intro f options
  have htolerance : 0 < options.tolerance := by
    show (0 : ℝ) < 27 / 10
    norm_num
  have hunimodal : Unimodal f 0 := by
    constructor
    · intro a ha b hb hab
      rw [Set.mem_Iic] at ha hb
      nlinarith only [hab, hb]
    · intro a ha b hb hab
      apply mul_self_lt_mul_self ha hab
  have hbracket : bracket f (-1) 1 = .ok ⟨-1, 2⟩ := by
    have hstep : Bracket.step f ⟨-1, 1⟩ = .ok (.done ⟨-1, 2⟩) := by
      norm_num [Bracket.step, Bracket.number, Interval.between, bind, Except.bind, f]
      rfl
    rw [← Bracket.answer_query, Bracket.query_eq_queryWalk _ one_ne_zero, Bracket.answer_queryWalk]
    show iterate _ _ (63 + 1) _ _ = _
    rw [iterate_succ, hstep]
    rfl
  have hbetween : Interval.between (2 : ℝ) (-1) = ⟨-1, 2⟩ := by
    rw [Bracket.between_eq]
    norm_num
  have hon : UnimodalOn f (.between 2 (-1)) 0 := by
    rw [hbetween]
    apply hunimodal.unimodalOn <;> norm_num
  obtain ⟨hbounds, hbrackets⟩ := minimizeBetween_near_minimum f options htolerance
  obtain ⟨r, hr, hnear⟩ := hbounds 2 (-1) 0 hon
  obtain ⟨r', hr', hnear'⟩ := hbrackets 0 (-1) 1 _ hunimodal hbracket
  have hconverged : r.converged = true := by
    rw [outcome_minimizeBetween, hbetween] at hr
    rw [← Except.ok.inj hr]
    exact minimum_square_converged
  have hconverged' : r'.converged = true := by
    rw [outcome_minimizeBetween, Interval.between, if_pos (by norm_num)] at hr'
    rw [← Except.ok.inj hr']
    exact minimum_square_converged
  exact ⟨htolerance, hon, ⟨r, hr, hconverged, hnear hconverged⟩, hunimodal, hbracket, r', hr',
    hconverged', hnear' hconverged'⟩

end Brent

end Numerics
