import Mathlib.Tactic.NormNum
import Numerics.Proofs.Search.Brent

/-!
# Line searches on parabolas

A search along a ray takes a first step of one. If the function has its minimum there and rises as a
parabola, then the bracket reaches from zero to three, and the search on it starts with a golden
section. The point that it ends with is no worse than this one, so it is as close to the minimum.
If the function is constant, then the search does not fail either.
-/

namespace Numerics

variable {α : Type} [ExactReal α] {f : α → α} {options : Options α}

/-! ### Brackets that are found at once -/

namespace Bracket

/-- The function falls at the first step, and is higher again two steps later. -/
theorem step_of_dip {w : Window α} (hnear : f (w.point + w.stride) < f w.point)
    (hfar : f (w.point + w.stride) < f (w.point + 3 * w.stride)) :
  step f w = .ok (.done (.between w.point (w.point + 3 * w.stride)))
  := by
  rw [← answer_queryStep]
  simp only [queryStep, queryNumber_eq, Query.value_bind, Query.answer_ask, nat_eq,
    Nat.cast_ofNat]
  rw [if_pos hnear, Query.answer_ask, if_pos hfar]
  rfl

/-- The function neither falls nor rises at the first step. -/
theorem step_of_flat {w : Window α} (h : f (w.point + w.stride) = f w.point) :
  step f w = .ok (.done (.between w.point (w.point + w.stride)))
  := by
  rw [← answer_queryStep]
  simp only [queryStep, queryNumber_eq, Query.value_bind, Query.answer_ask]
  rw [if_neg h.not_lt, if_neg h.not_gt]
  rfl

theorem bracket_of_done {x₀ stride : α} (hstride : stride ≠ 0) {i : Interval α}
    (h : step f ⟨x₀, stride⟩ = .ok (.done i)) :
  bracket f x₀ stride = .ok i
  := by
  have hvalid : (stride == 0 || !isFinite stride) = false := by
    rw [beq_eq, isFinite_eq, decide_eq_false hstride]
    rfl
  rw [bracket, hvalid, budget, iterate_succ, h]
  rfl

end Bracket

/-! ### Searches on an interval that was found -/

namespace Brent

/-- The search on an interval starts with a golden section, and ends with no greater value. -/
theorem minimum_le_start {i : Interval α} (hi : i.lower ≤ i.upper)
    (htol : 0 ≤ options.tolerance) :
  (minimum f i options).value = f (minimum f i options).x
    ∧ (minimum f i options).value ≤ f (i.lower + golden * (i.upper - i.lower))
  := by
  obtain ⟨r, hanswer, hleast, -⟩ := query_least (f := f) hi htol
  rw [answer_query] at hanswer
  obtain rfl := Except.ok.inj hanswer
  use hleast.value
  apply hleast.le
  rw [query, Query.asked_bind_of_ok (answer_queryStart f i)]
  exact List.mem_cons_self

end Brent

theorem outcome_minimizeNear {x₀ stride : α} {i : Interval α} (h : bracket f x₀ stride = .ok i)
    (hi : i.lower ≤ i.upper) :
  (minimizeNear f x₀ stride options).outcome = .ok (Brent.minimum f i options)
  := by
  have hbetween : Interval.between i.lower i.upper = i := by
    rw [Bracket.between_eq, min_eq_left hi, max_eq_right hi]
  rw [minimizeNear, h]
  show (minimizeBetween f i.lower i.upper options).outcome = _
  rw [Brent.outcome_minimizeBetween, hbetween]

/-- The search along a constant has a result, no further away than the first step. -/
theorem minimizeRay_const (c : α) (htol : 0 ≤ options.tolerance) :
  ∃ r, (minimizeRay (fun _ => c) options).outcome = .ok r ∧ r.value = c ∧ 0 ≤ r.x ∧ r.x ≤ 1
  := by
  have hbracket : bracket (fun _ : α => c) 0 1 = .ok ⟨0, 1⟩ := by
    have hinterval : Interval.between (0 : α) (0 + 1) = ⟨0, 1⟩ := by
      rw [Bracket.between_eq]
      norm_num
    rw [← hinterval]
    apply Bracket.bracket_of_done one_ne_zero (Bracket.step_of_flat rfl)
  obtain ⟨r, hanswer, hleast, hmem⟩ :=
    Brent.query_least (f := fun _ : α => c) (i := ⟨0, 1⟩) zero_le_one htol
  rw [Brent.answer_query] at hanswer
  obtain rfl := Except.ok.inj hanswer
  exact ⟨_, outcome_minimizeNear hbracket zero_le_one, hleast.value, hmem _ hleast.mem⟩

/-! ### Parabolas -/

/-- The parabola with the minimum `c` at one that rises by `q` at zero. -/
def bowl (c q t : α) : α :=
  c + q * ((1 - t) * (1 - t))

/-- The search along a parabola, or a constant, has a result, which misses the minimum of a parabola
by no more than `0.146`. -/
theorem minimizeRay_bowl (c : α) {q : α} (hq : 0 ≤ q) (htol : 0 ≤ options.tolerance) :
  ∃ r, (minimizeRay (bowl c q) options).outcome = .ok r
    ∧ (q ≠ 0 → |1 - r.x| ≤ 146 / 1000)
  := by
  obtain rfl | hpos := hq.eq_or_lt
  · have hconst : bowl c 0 = fun _ : α => c := by
      funext t
      rw [bowl, zero_mul, add_zero]
    obtain ⟨r, hr, -⟩ := minimizeRay_const c htol
    rw [hconst]
    use r, hr
    intro h
    exact absurd rfl h
  · have hbracket : bracket (bowl c q) 0 1 = .ok (.between 0 (0 + 3 * 1)) := by
      apply Bracket.bracket_of_done one_ne_zero (Bracket.step_of_dip _ _)
      · simp [bowl, hpos]
      · simp only [bowl]
        linarith
    have hinterval : Interval.between (0 : α) (0 + 3 * 1) = ⟨0, 3⟩ := by
      rw [Bracket.between_eq]
      norm_num
    rw [hinterval] at hbracket
    use Brent.minimum (bowl c q) ⟨0, 3⟩ options, outcome_minimizeNear hbracket zero_le_three
    intro _
    obtain ⟨hvalue, hle⟩ := Brent.minimum_le_start (f := bowl c q) (i := ⟨0, 3⟩) zero_le_three htol
    rw [hvalue, bowl, bowl, add_le_add_iff_left, mul_le_mul_iff_right₀ hpos] at hle
    apply abs_le_of_sq_le_sq _ (by norm_num)
    rw [sq, sq]
    apply hle.trans
    rw [Brent.golden, ratio_eq]
    norm_num

end Numerics
