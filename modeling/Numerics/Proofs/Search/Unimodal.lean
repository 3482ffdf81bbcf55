import Mathlib.Order.Interval.Set.Basic
import Mathlib.Tactic.NormNum
import Numerics.Proofs.Search.Bracket

/-!
# Brackets of unimodal functions

A function is `Unimodal` if it falls strictly up to a point and rises strictly from there. An
interval that encloses a minimum of such a function contains this point.

The walk that brackets the minimum has a `Course` of two kinds, which is described in strides, that
is, by the numbers `t` for which the windows stand at `x₀ + t * d`. A walk ahead stands at
`2 ^ k - 1` after `k` rounds, and a walk that turns at its first window stands at
`-(3 * (2 ^ k - 1))`. If it ever turns back, then the round in which it does ends it. So a minimum
at a distance of at most `2 ^ 63` strides, on either side, is found within the budget.
-/

namespace Numerics

variable {α : Type} [ExactScalar α] {f : α → α} {x a b : α}

/-! ### Unimodal functions -/

/-- The function `f` falls strictly up to `x`, and rises strictly from there. -/
structure Unimodal (f : α → α) (x : α) : Prop where
  falls : StrictAntiOn f (Set.Iic x)
  rises : StrictMonoOn f (Set.Ici x)

namespace Unimodal

theorem lt_of_rise (h : Unimodal f x) (hab : a < b) (hf : f a < f b) :
  x < b
  := by
  apply lt_of_not_ge
  intro hb
  exact hf.not_gt (h.falls (hab.le.trans hb) hb hab)

theorem lt_of_fall (h : Unimodal f x) (hab : a < b) (hf : f b < f a) :
  a < x
  := by
  apply lt_of_not_ge
  intro ha
  exact hf.not_gt (h.rises ha (ha.trans hab.le) hab)

theorem lt_and_lt_of_eq (h : Unimodal f x) (hab : a < b) (hf : f a = f b) :
  a < x ∧ x < b
  := by
  constructor
  · apply lt_of_not_ge
    intro ha
    exact (h.rises ha (ha.trans hab.le) hab).ne hf
  · apply lt_of_not_ge
    intro hb
    exact (h.falls (hab.le.trans hb) hb hab).ne' hf

variable {φ : α → α} {m : α}

theorem comp_strictMono (h : Unimodal f x) (hφ : StrictMono φ) (hm : φ m = x) :
  Unimodal (fun t => f (φ t)) m
  := by
  rw [← hm] at h
  constructor
  · apply h.falls.comp_strictMonoOn (hφ.strictMonoOn _)
    intro t ht
    apply hφ.monotone ht
  · apply h.rises.comp (hφ.strictMonoOn _)
    intro t ht
    apply hφ.monotone ht

theorem comp_strictAnti (h : Unimodal f x) (hφ : StrictAnti φ) (hm : φ m = x) :
  Unimodal (fun t => f (φ t)) m
  := by
  rw [← hm] at h
  constructor
  · apply h.rises.comp_strictAntiOn (hφ.strictAntiOn _)
    intro t ht
    apply hφ.antitone ht
  · apply h.falls.comp (hφ.strictAntiOn _)
    intro t ht
    apply hφ.antitone ht

/-- A unimodal function is unimodal in the number of strides from `x₀`, too. -/
theorem strides (h : Unimodal f x) (x₀ : α) {d : α} (hd : d ≠ 0) :
  Unimodal (fun t => f (x₀ + t * d)) ((x - x₀) / d)
  := by
  have hpoint : x₀ + (x - x₀) / d * d = x := by
    rw [div_mul_cancel₀ _ hd, add_sub_cancel]
  rcases lt_or_gt_of_ne hd with hd | hd
  · have hanti : StrictAnti fun t => x₀ + t * d := by
      intro s t hst
      apply add_lt_add_right (mul_lt_mul_of_neg_right hst hd)
    exact h.comp_strictAnti hanti hpoint
  · have hmono : StrictMono fun t => x₀ + t * d := by
      intro s t hst
      apply add_lt_add_right (mul_lt_mul_of_pos_right hst hd)
    exact h.comp_strictMono hmono hpoint

end Unimodal

namespace Bracket

/-- An interval that encloses a minimum of a unimodal function contains it. -/
theorem Encloses.contains {points : List α} {i : Interval α} (h : Encloses f points i)
    (hf : Unimodal f x) :
  i.lower < x ∧ x < i.upper
  := by
  rcases h.minimum with heq | ⟨m, -, hlower, hupper, hfl, hfu⟩
  · exact hf.lt_and_lt_of_eq h.lower_lt_upper heq
  · exact ⟨hf.lt_of_fall hlower hfl, hf.lt_of_rise hupper hfu⟩

/-! ### The course of a walk -/

section

variable {x₀ d t u : α} {w w' : Window α}

/-- A round that goes on, in strides: from the window of `u` strides at `t`, either ahead or behind.
-/
theorem step_eq_next (hd : d ≠ 0) (hu : u ≠ 0)
    (h : step f ⟨x₀ + t * d, u * d⟩ = .ok (.next w')) :
  (w' = ⟨x₀ + (t + u) * d, 2 * u * d⟩
      ∧ f (x₀ + (t + u) * d) < f (x₀ + t * d)
      ∧ f (x₀ + (t + 3 * u) * d) < f (x₀ + (t + u) * d))
    ∨ w' = ⟨x₀ + (t - 3 * u) * d, 2 * u * d⟩
      ∧ f (x₀ + t * d) < f (x₀ + (t + u) * d)
      ∧ f (x₀ + (t - u) * d) < f (x₀ + t * d)
  := by
  obtain ⟨r, hr, hturn⟩ := step_turn f ⟨x₀ + t * d, u * d⟩ (mul_ne_zero hu hd)
  obtain rfl := Except.ok.inj (hr.symm.trans h)
  have hnearPoint : x₀ + t * d + u * d = x₀ + (t + u) * d := by ring
  have hfarPoint : x₀ + t * d + 3 * (u * d) = x₀ + (t + 3 * u) * d := by ring
  have hbackPoint : x₀ + t * d - u * d = x₀ + (t - u) * d := by ring
  have hturnPoint : x₀ + t * d - 3 * (u * d) = x₀ + (t - 3 * u) * d := by ring
  have hstride : u * d + u * d = 2 * u * d := by ring
  generalize (queryStep _).asked f = points at hturn
  cases hturn with
  | ahead hnear hfar =>
    left
    dsimp only at hnear hfar ⊢
    rw [hfarPoint, hnearPoint] at hfar
    rw [hnearPoint] at hnear
    rw [hnearPoint, hstride]
    exact ⟨rfl, hnear, hfar⟩
  | behind hnear hback =>
    right
    dsimp only at hnear hback ⊢
    rw [hnearPoint] at hnear
    rw [hbackPoint] at hback
    rw [hturnPoint, hstride]
    exact ⟨rfl, hnear, hback⟩

/-- Where a walk stands after `k` rounds, if `g` is its function in strides. -/
inductive Course (g : α → α) (k : Nat) (t : α) : Prop where
  /-- The walk went ahead, and the function falls there. -/
  | ahead (ht : t = 2 ^ k - 1) (h : 0 < k → g (t + 2 ^ k) < g t)
  /-- The walk went behind, and the function rises from the point between the last two windows. -/
  | behind (ht : t = -(3 * (2 ^ k - 1))) (h : 0 < k → g (t + 2 ^ k) < g (t + 3 / 2 * 2 ^ k))

variable {g : α → α} {k : Nat} {m : α}

/-- A course that goes ahead once more. It has not gone behind before, as the function then rises
between the last two windows, and cannot fall beyond them. -/
theorem Course.next_ahead (h : Course g k t) (hg : Unimodal g m) (hnear : g (t + 2 ^ k) < g t)
    (hfar : g (t + 3 * 2 ^ k) < g (t + 2 ^ k)) :
  Course g (k + 1) (t + 2 ^ k)
  := by
  have hpos : (0 : α) < 2 ^ k := by positivity
  have hnext : t + 2 ^ k + 2 ^ (k + 1) = t + 3 * 2 ^ k := by ring
  cases h with
  | ahead ht _ =>
    apply Course.ahead
    · rw [ht]
      ring
    · intro _
      rw [hnext]
      exact hfar
  | behind ht hturned =>
    rcases Nat.eq_zero_or_pos k with rfl | hk
    · apply Course.ahead
      · rw [ht]
        ring
      · intro _
        rw [hnext]
        exact hfar
    · have hm := hg.lt_of_rise (by linarith) (hturned hk)
      have hrise := hg.rises hm.le (Set.mem_Ici.mpr (by linarith))
        (show t + 3 / 2 * 2 ^ k < t + 3 * 2 ^ k by linarith)
      exact absurd hfar ((hturned hk).trans hrise).not_gt

/-- A course that goes behind once more. -/
theorem Course.next_behind (h : Course g k t) (hnear : g t < g (t + 2 ^ k))
    (hback : g (t - 2 ^ k) < g t) :
  Course g (k + 1) (t - 3 * 2 ^ k)
  := by
  have hmiddle : t - 3 * 2 ^ k + 2 ^ (k + 1) = t - 2 ^ k := by ring
  have hend : t - 3 * 2 ^ k + 3 / 2 * 2 ^ (k + 1) = t := by ring
  cases h with
  | ahead ht hfell =>
    rcases Nat.eq_zero_or_pos k with rfl | hk
    · apply Course.behind
      · rw [ht]
        ring
      · intro _
        rw [hmiddle, hend]
        exact hback
    · exact absurd hnear (hfell hk).not_gt
  | behind ht _ =>
    apply Course.behind
    · rw [ht]
      ring
    · intro _
      rw [hmiddle, hend]
      exact hback

/-- The windows of a walk on a unimodal function. -/
theorem reached_course (hf : Unimodal f x) (hd : d ≠ 0)
    (h : Reached (fun _ => step f) ⟨x₀, d⟩ k w) :
  ∃ t, w = ⟨x₀ + t * d, 2 ^ k * d⟩ ∧ Course (fun t => f (x₀ + t * d)) k t
  := by
  induction h with
  | start =>
    use 0
    rw [zero_mul, add_zero, pow_zero, one_mul]
    use rfl
    apply Course.ahead (by ring)
    rintro ⟨⟩
  | @next k _ w' _ hstep ih =>
    obtain ⟨t, rfl, hcourse⟩ := ih
    have hpow : (2 : α) * 2 ^ k = 2 ^ (k + 1) := by ring
    rcases step_eq_next hd (pow_ne_zero k two_ne_zero) hstep with
      ⟨rfl, hnear, hfar⟩ | ⟨rfl, hnear, hback⟩
    · use t + 2 ^ k
      rw [hpow]
      exact ⟨rfl, hcourse.next_ahead (hf.strides x₀ hd) hnear hfar⟩
    · use t - 3 * 2 ^ k
      rw [hpow]
      exact ⟨rfl, hcourse.next_behind hnear hback⟩

/-- A walk that is not over after `64` rounds has left a minimum within `2 ^ 63` strides behind. -/
theorem Course.lt_abs (h : Course g 64 t) (hg : Unimodal g m) :
  2 ^ 63 < |m|
  := by
  cases h with
  | ahead ht hfell =>
    have hm := hg.lt_of_fall (by norm_num) (hfell (by decide))
    apply lt_of_lt_of_le _ (le_abs_self m)
    rw [ht] at hm
    norm_num at hm ⊢
    linarith
  | behind ht hturned =>
    have hm := hg.lt_of_rise (by norm_num) (hturned (by decide))
    apply lt_of_lt_of_le _ (neg_le_abs m)
    rw [ht] at hm
    norm_num at hm ⊢
    linarith

end

/-! ### Completeness -/

/-- With exact scalars, a minimum of a unimodal function is enclosed from every starting point that
is at most `2 ^ 63` strides away, whichever way the first step leads. -/
theorem bracket_contains_minimum (f : α → α) (x x₀ stride : α) (hf : Unimodal f x)
    (hstride : stride ≠ 0) (hnear : |x - x₀| ≤ 2 ^ 63 * |stride|) :
  ∃ i, bracket f x₀ stride = .ok i ∧ i.lower < x ∧ x < i.upper
  := by
  rw [← answer_query, query_eq_queryWalk x₀ hstride]
  rcases queryWalk_encloses_or_descends f budget 0 ⟨x₀, stride⟩ hstride with
    ⟨i, hok, hencloses⟩ | ⟨herror, -⟩
  · use i, hok, (hencloses.contains hf).1, (hencloses.contains hf).2
  · exfalso
    rw [answer_queryWalk] at herror
    have hend := iterate_ended (fun _ => step f) (fun _ => .error .noBracket) ⟨x₀, stride⟩ budget
    rw [herror] at hend
    cases hend with
    | @error i _ _ _ hreached hstep =>
      obtain ⟨t, rfl, -⟩ := reached_course hf hstride hreached
      have hw : 2 ^ i * stride ≠ 0 := mul_ne_zero (pow_ne_zero i two_ne_zero) hstride
      obtain ⟨r, hr, -⟩ := step_turn f ⟨x₀ + t * stride, 2 ^ i * stride⟩ hw
      cases hstep.symm.trans hr
    | exhausted hreached _ =>
      obtain ⟨t, -, hcourse⟩ := reached_course hf hstride hreached
      have hfar := hcourse.lt_abs (hf.strides x₀ hstride)
      rw [abs_div, lt_div_iff₀ (abs_pos.mpr hstride)] at hfar
      exact hfar.not_ge hnear

/-- A walk that starts uphill, turns, and turns back behind the minimum. -/
theorem bracket_contains_minimum_turning :
  Unimodal (fun x : ℚ => (x - 4) * (x - 4)) 4
    ∧ |(4 : ℚ) - 10| ≤ 2 ^ 63 * |1|
    ∧ ∃ i, bracket (fun x : ℚ => (x - 4) * (x - 4)) 10 1 = .ok i ∧ i.lower < 4 ∧ 4 < i.upper
  := by
  have hunimodal : Unimodal (fun x : ℚ => (x - 4) * (x - 4)) 4 := by
    constructor
    · intro a ha b hb hab
      rw [Set.mem_Iic] at ha hb
      nlinarith only [hab, hb]
    · intro a ha b hb hab
      rw [Set.mem_Ici] at ha hb
      apply mul_self_lt_mul_self <;> linarith
  have hnear : |(4 : ℚ) - 10| ≤ 2 ^ 63 * |1| := by
    norm_num [abs_of_neg]
  use hunimodal, hnear
  apply bracket_contains_minimum _ _ _ _ hunimodal one_ne_zero hnear

end Bracket

end Numerics
