import Mathlib.Tactic.Linarith
import Mathlib.Tactic.Ring
import Numerics.Proofs.Scalar.Exact
import Numerics.Proofs.Search.Query
import Numerics.Search.Bracket

/-!
# What a bracket shows

The walk that brackets a minimum is a `query`: its answer is `bracket`, and the points at which it
asks for a value are known. With exact scalars every round of the walk takes one `Turn`, ahead,
behind, or to an interval at which it ends.

Nothing is assumed of the function. An interval that is found `Encloses` a minimum, by the values at
its ends and at one point between them that was asked for. A walk that finds none `Descends`: in
each of its rounds the third value is less than all values before it. The reason is that the next
window has this third point in its middle, where the next third value has to be less again.
-/

namespace Numerics.Bracket

/-! ### The walk as a query -/

section

variable {α : Type} [RealScalar α]

/-- The value at `x`, which has to be a number. -/
def queryNumber (x : α) : Query α α := do
  number (← Query.value x)

/-- One round of the walk, as a query. -/
def queryStep (w : Window α) : Query α (Round (Window α) (Interval α)) := do
  let x := w.point
  let d := w.stride
  let here ← queryNumber x
  let near ← queryNumber (x + d)
  if here > near then
    let far ← queryNumber (x + nat 3 * d)
    if near < far then
      return .done (.between x (x + nat 3 * d))
    else if near == far then
      return .done (.between (x + d) (x + nat 3 * d))
    else
      return .next ⟨x + d, d + d⟩
  else if here < near then
    let back ← queryNumber (x - d)
    if back > here then
      return .done (.between (x - d) (x + d))
    else if back == here then
      return .done (.between (x - d) x)
    else
      return .next ⟨x - nat 3 * d, d + d⟩
  else
    return .done (.between x (x + d))

/-- The walk from the window `w`, as a query. -/
def queryWalk (rounds i : Nat) (w : Window α) : Query α (Interval α) :=
  iterate (fun _ => queryStep) (fun _ => .fail .noBracket) rounds i w

/-- The search for a bracket from `x₀` with a first step of length `stride`, as a query. -/
def query (x₀ stride : α) : Query α (Interval α) :=
  if stride == 0 || !isFinite stride then
    .fail .invalidArgument
  else
    queryWalk budget 0 ⟨x₀, stride⟩

variable (f : α → α)

theorem answer_queryNumber (x : α) :
  (queryNumber x).answer f = number (f x)
  := Query.answer_ofExcept f _

theorem answer_queryStep (w : Window α) :
  (queryStep w).answer f = step f w
  := by
  simp only [queryStep, step, Query.answer_bind, answer_queryNumber, apply_ite (Query.answer f),
    Query.answer_pure]
  rfl

theorem answer_queryWalk (rounds i : Nat) (w : Window α) :
  (queryWalk rounds i w).answer f
    = iterate (fun _ => step f) (fun _ => .error .noBracket) rounds i w
  := by
  rw [queryWalk, Query.answer_iterate]
  simp only [answer_queryStep]
  rfl

theorem answer_query (x₀ stride : α) :
  (query x₀ stride).answer f = bracket f x₀ stride
  := by
  rw [query, bracket, apply_ite (Query.answer f), answer_queryWalk]
  rfl

end

variable {α : Type} [ExactScalar α] {f : α → α} {points : List α}

/-! ### Enclosed minima -/

theorem between_eq (a b : α) :
  Interval.between a b = ⟨min a b, max a b⟩
  := by
  rw [Interval.between]
  split
  case isTrue h => rw [min_eq_left h, max_eq_right h]
  case isFalse h =>
    rw [not_le] at h
    rw [min_eq_right h.le, max_eq_left h.le]

/-- The values of `f` show that there is a minimum inside the interval `i`: its ends differ, and the
values there are equal, or both are greater than the value at one of the `points` in between. -/
structure Encloses (f : α → α) (points : List α) (i : Interval α) : Prop where
  lower_lt_upper : i.lower < i.upper
  minimum : f i.lower = f i.upper
    ∨ ∃ m ∈ points, i.lower < m ∧ m < i.upper ∧ f m < f i.lower ∧ f m < f i.upper

theorem Encloses.mono {points' : List α} {i : Interval α} (h : Encloses f points i)
    (hpoints : points ⊆ points') :
  Encloses f points' i
  := by
  use h.lower_lt_upper
  apply h.minimum.imp_right
  rintro ⟨m, hm, hvalues⟩
  use m, hpoints hm

theorem encloses_of_eq {a b : α} (hab : a ≠ b) (h : f a = f b) :
  Encloses f points (.between a b)
  := by
  rw [between_eq]
  constructor
  · exact min_lt_max.mpr hab
  · left
    rcases le_total a b with hle | hle
    · rw [min_eq_left hle, max_eq_right hle, h]
    · rw [min_eq_right hle, max_eq_left hle, h]

theorem encloses_of_lt {a b m : α} (hm : m ∈ points) (hab : a < m ∧ m < b ∨ b < m ∧ m < a)
    (ha : f m < f a) (hb : f m < f b) :
  Encloses f points (.between a b)
  := by
  rw [between_eq]
  rcases hab with ⟨ham, hmb⟩ | ⟨hbm, hma⟩
  · have hlt := ham.trans hmb
    rw [min_eq_left hlt.le, max_eq_right hlt.le]
    use hlt, .inr ⟨m, hm, ham, hmb, ha, hb⟩
  · have hlt := hbm.trans hma
    rw [min_eq_right hlt.le, max_eq_left hlt.le]
    use hlt, .inr ⟨m, hm, hbm, hma, hb, ha⟩

/-! ### Rounds -/

/-- A round of the walk from the window `w` may lead to `r` and ask for the values at `points`. -/
inductive Turn (f : α → α) (w : Window α) : Round (Window α) (Interval α) → List α → Prop where
  /-- The function goes on falling ahead. -/
  | ahead (hnear : f (w.point + w.stride) < f w.point)
      (hfar : f (w.point + 3 * w.stride) < f (w.point + w.stride)) :
      Turn f w (.next ⟨w.point + w.stride, w.stride + w.stride⟩)
        [w.point, w.point + w.stride, w.point + 3 * w.stride]
  /-- The function rises ahead and falls behind. -/
  | behind (hnear : f w.point < f (w.point + w.stride))
      (hback : f (w.point - w.stride) < f w.point) :
      Turn f w (.next ⟨w.point - 3 * w.stride, w.stride + w.stride⟩)
        [w.point, w.point + w.stride, w.point - w.stride]
  /-- A minimum is enclosed. -/
  | found {i : Interval α} {points : List α} (h : Encloses f points i) :
      Turn f w (.done i) points

theorem queryNumber_eq (x : α) :
  queryNumber x = Query.value x
  := by
  simp only [queryNumber, number, isNaN_eq, Bool.false_eq_true, if_false]
  rfl

/-- With exact scalars no round fails. -/
theorem step_turn (f : α → α) (w : Window α) (hw : w.stride ≠ 0) :
  ∃ r, step f w = .ok r ∧ Turn f w r ((queryStep w).asked f)
  := by
  rw [← answer_queryStep]
  obtain ⟨x, d⟩ := w
  dsimp only at hw
  simp only [queryStep, queryNumber_eq, Query.value_bind, Query.answer_ask, Query.asked_ask, nat_eq,
    Nat.cast_ofNat, beq_eq, decide_eq_true_eq]
  rcases lt_trichotomy (f (x + d)) (f x) with hnear | hnear | hnear
  · rw [if_pos hnear]
    simp only [Query.answer_ask, Query.asked_ask]
    rcases lt_trichotomy (f (x + d)) (f (x + 3 * d)) with hfar | hfar | hfar
    · rw [if_pos hfar]
      refine ⟨_, rfl, .found (encloses_of_lt (m := x + d) (by simp) ?_ hnear hfar)⟩
      rcases lt_or_gt_of_ne hw <;> grind
    · rw [if_neg hfar.not_lt, if_pos hfar]
      refine ⟨_, rfl, .found (encloses_of_eq ?_ hfar)⟩
      grind
    · rw [if_neg hfar.not_gt, if_neg hfar.ne']
      exact ⟨_, rfl, .ahead hnear hfar⟩
  · rw [if_neg hnear.not_gt, if_neg hnear.not_lt]
    refine ⟨_, rfl, .found (encloses_of_eq ?_ hnear.symm)⟩
    grind
  · rw [if_neg hnear.not_gt, if_pos hnear]
    simp only [Query.answer_ask, Query.asked_ask]
    rcases lt_trichotomy (f x) (f (x - d)) with hback | hback | hback
    · rw [if_pos hback]
      refine ⟨_, rfl, .found (encloses_of_lt (m := x) (by simp) ?_ hback hnear)⟩
      rcases lt_or_gt_of_ne hw <;> grind
    · rw [if_neg hback.not_lt, if_pos hback.symm]
      refine ⟨_, rfl, .found (encloses_of_eq ?_ hback.symm)⟩
      grind
    · rw [if_neg hback.not_gt, if_neg hback.ne]
      exact ⟨_, rfl, .behind hnear hback⟩

/-- The third point of a round that goes on has the least value, and is the second one of the next
round. -/
theorem Turn.next_eq {w w' : Window α} (h : Turn f w (.next w') points) :
  points = [w.point, w.point + w.stride, w'.point + w'.stride]
    ∧ f (w'.point + w'.stride) < f w.point
    ∧ f (w'.point + w'.stride) < f (w.point + w.stride)
    ∧ w'.stride = w.stride + w.stride
  := by
  cases h with
  | ahead hnear hfar =>
    have hpoint : w.point + w.stride + (w.stride + w.stride) = w.point + 3 * w.stride := by ring
    dsimp only
    rw [hpoint]
    exact ⟨rfl, hfar.trans hnear, hfar, rfl⟩
  | behind hnear hback =>
    have hpoint : w.point - 3 * w.stride + (w.stride + w.stride) = w.point - w.stride := by ring
    dsimp only
    rw [hpoint]
    exact ⟨rfl, hback, hback.trans hnear, rfl⟩

theorem stride_add_stride_ne_zero {w : Window α} (hw : w.stride ≠ 0) :
  w.stride + w.stride ≠ 0
  := by
  rw [← two_mul]
  apply mul_ne_zero two_ne_zero hw

/-! ### Descending walks -/

/-- Of the `points`, three for each of the rounds, the third one of every round has a value less
than all points before it. -/
structure Descends (f : α → α) (points : List α) (rounds : Nat) : Prop where
  length : points.length = 3 * rounds
  third : ∀ k < rounds, ∃ q, points[3 * k + 2]? = some q ∧ ∀ p ∈ points.take (3 * k + 2), f q < f p

theorem Descends.nil (f : α → α) :
  Descends f [] 0
  := by
  constructor
  · rfl
  · intro k hk
    cases hk

/-- A round with the third point `z` may come before rounds whose second point is `z`. -/
theorem Descends.cons {rounds : Nat} (h : Descends f points rounds) {x y z : α} (hx : f z < f x)
    (hy : f z < f y) (hz : ∀ p ∈ points[1]?, p = z) :
  Descends f (x :: y :: z :: points) (rounds + 1)
  := by
  have hlength := h.length
  constructor
  · simp only [List.length_cons]
    omega
  · intro k hk
    cases k with
    | zero =>
      use z, rfl
      simp [hx, hy]
    | succ k =>
      obtain ⟨q, hq, hless⟩ := h.third k (Nat.lt_of_succ_lt_succ hk)
      have hqz : f q < f z := by
        have hone : 1 < points.length := by omega
        rw [← hz points[1] (List.getElem?_eq_getElem hone)]
        apply hless
        rw [List.mem_take_iff_getElem]
        use 1, (by omega)
      use q, hq
      rw [show 3 * (k + 1) + 2 = 3 * k + 2 + 1 + 1 + 1 by ring]
      simp only [List.take_succ_cons, List.forall_mem_cons]
      exact ⟨hqz.trans hx, hqz.trans hy, hqz, hless⟩

/-- A walk encloses a minimum, or else descends from the second point of its window. -/
theorem queryWalk_encloses_or_descends (f : α → α) (rounds i : Nat) (w : Window α)
    (hw : w.stride ≠ 0) :
  (∃ r, (queryWalk rounds i w).answer f = .ok r
      ∧ Encloses f ((queryWalk rounds i w).asked f) r)
    ∨ (queryWalk rounds i w).answer f = .error .noBracket
      ∧ Descends f ((queryWalk rounds i w).asked f) rounds
      ∧ ∀ p ∈ ((queryWalk rounds i w).asked f)[1]?, p = w.point + w.stride
  := by
  induction rounds generalizing i w with
  | zero =>
    right
    use rfl, .nil f
    rintro p ⟨⟩
  | succ rounds ih =>
    obtain ⟨r, hr, hturn⟩ := step_turn f w hw
    rw [← answer_queryStep] at hr
    cases r with
    | done r =>
      left
      use r
      rw [queryWalk, Query.asked_iterate_done hr, iterate_succ, Query.answer_bind, hr]
      cases hturn with
      | found h => exact ⟨rfl, h⟩
    | next w' =>
      obtain ⟨hpoints, hfirst, hsecond, hstride⟩ := hturn.next_eq
      have hw' : w'.stride ≠ 0 := by
        rw [hstride]
        exact stride_add_stride_ne_zero hw
      have hanswer :
          (queryWalk (rounds + 1) i w).answer f = (queryWalk rounds (i + 1) w').answer f := by
        rw [queryWalk, iterate_succ, Query.answer_bind, hr]
        rfl
      have hasked : (queryWalk (rounds + 1) i w).asked f
          = [w.point, w.point + w.stride, w'.point + w'.stride]
            ++ (queryWalk rounds (i + 1) w').asked f := by
        rw [queryWalk, Query.asked_iterate_next hr, hpoints]
        rfl
      rw [hanswer, hasked]
      rcases ih (i + 1) w' hw' with ⟨r, hok, hencloses⟩ | ⟨herror, hdescends, hone⟩
      · left
        use r, hok
        apply hencloses.mono
        apply List.subset_append_right
      · right
        use herror, hdescends.cons hfirst hsecond hone
        rintro p ⟨⟩
        rfl

/-! ### The bracket -/

theorem query_eq_queryWalk (x₀ : α) {stride : α} (h : stride ≠ 0) :
  query x₀ stride = queryWalk budget 0 ⟨x₀, stride⟩
  := by
  rw [query, beq_eq, decide_eq_false h, isFinite_eq]
  rfl

/-- With exact scalars, and whatever the function: either an interval is found at whose ends the
values are equal, or greater than the value at a point in between that was looked at; or there is no
interval after all rounds, and the third value of every round is less than all values seen before.
The points that are looked at are those of a query whose answer is the outcome. -/
theorem bracket_encloses_or_descends (f : α → α) (x₀ stride : α) (h : stride ≠ 0) :
  (query x₀ stride).answer f = bracket f x₀ stride
    ∧ ((∃ i, bracket f x₀ stride = .ok i ∧ Encloses f ((query x₀ stride).asked f) i)
      ∨ bracket f x₀ stride = .error .noBracket
        ∧ Descends f ((query x₀ stride).asked f) budget)
  := by
  use answer_query f x₀ stride
  rw [← answer_query, query_eq_queryWalk x₀ h]
  rcases queryWalk_encloses_or_descends f budget 0 ⟨x₀, stride⟩ h with hok | ⟨herror, hdescends, -⟩
  · left
    exact hok
  · right
    exact ⟨herror, hdescends⟩

/-- A parabola has a bracket, and a falling line has none. -/
theorem bracket_encloses_or_descends_parabola_line :
  let parabola : ℚ → ℚ := fun x => x * x - 4 * x + 7
  let line : ℚ → ℚ := fun x => -x
  (∃ i, bracket parabola (-5) 1 = .ok i ∧ Encloses parabola ((query (-5) 1).asked parabola) i)
    ∧ bracket line 0 1 = .error .noBracket
    ∧ Descends line ((query 0 1).asked line) 64
  := by
  intro parabola line
  have hparabola : (bracket parabola (-5) 1).isOk = true := by decide +kernel
  have hline : (bracket line 0 1).isOk = false := by decide +kernel
  constructor
  · obtain ⟨-, hok | ⟨herror, -⟩⟩ := bracket_encloses_or_descends parabola (-5) 1 one_ne_zero
    · exact hok
    · rw [herror] at hparabola
      cases hparabola
  · obtain ⟨-, ⟨i, hok, -⟩ | herror⟩ := bracket_encloses_or_descends line 0 1 one_ne_zero
    · rw [hok] at hline
      cases hline
    · exact herror

end Numerics.Bracket
