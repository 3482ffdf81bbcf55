import Numerics.Proofs.Search.Bracket
import Numerics.Search.Brent

/-!
# What the search on an interval keeps

The search that closes in on a minimum is a `query`: a round of it asks for the value at its
`trialPoint`, which is chosen without it, and takes the answer in by `receive`.

A search is `Consistent` while its best point lies in its bracket and has the value that it is said
to have. With exact scalars every round keeps that, because no trial point leaves the bracket,
whether its step was golden or parabolic. The one step that could leave it is the least one, of the
length of the resolution. It leads into the larger part of the bracket, which is more than twice as
long as long as the search is not settled.

So every point that the search looks at lies in the interval, the brackets are nested, and the
result is a point of the least value that was seen.
-/

namespace Numerics.Brent

/-! ### The search as a query -/

section

variable {α : Type} [RealScalar α]

/-- The search on `i` starts with the value of one point. -/
def queryStart (i : Interval α) : Query α (State α) := do
  let x := i.lower + golden * (i.upper - i.lower)
  let sample := ⟨x, ← Query.value x⟩
  return {
    a := i.lower
    b := i.upper
    best := sample
    second := sample
    third := sample
    last := 0
    previous := 0 }

/-- The next trial point. -/
def trialPoint (options : Options α) (s : State α) : α :=
  let tol := resolution options s
  trial tol s (nextSteps tol s).last

/-- The state after the trial point, where the function has the value `v`. -/
def receive (options : Options α) (s : State α) (v : α) : State α :=
  let steps := nextSteps (resolution options s) s
  update { s with last := steps.last, previous := steps.previous } ⟨trialPoint options s, v⟩

/-- One round of the search, as a query. -/
def queryStep (options : Options α) (i : Nat) (s : State α) :
    Query α (Round (State α) (ScalarResult α)) := do
  if settled options s then
    return .done ⟨s.best.x, s.best.value, i, true⟩
  else
    return .next (receive options s (← Query.value (trialPoint options s)))

/-- The rounds of the search from the state `s`, as a query. -/
def queryRounds (options : Options α) (rounds i : Nat) (s : State α) : Query α (ScalarResult α) :=
  iterate (queryStep options) (fun s => return ⟨s.best.x, s.best.value, options.iterations, false⟩)
    rounds i s

/-- The whole search on `i`, as a query. -/
def query (i : Interval α) (options : Options α) : Query α (ScalarResult α) := do
  queryRounds options options.iterations 0 (← queryStart i)

variable (f : α → α)

theorem answer_queryStart (i : Interval α) :
  (queryStart i).answer f = .ok (start f i)
  := rfl

theorem answer_queryStep (options : Options α) (i : Nat) (s : State α) :
  (queryStep options i s).answer f = .ok (step f options i s)
  := by
  rw [queryStep, step]
  split <;> rfl

theorem answer_query (i : Interval α) (options : Options α) :
  (query i options).answer f = .ok (minimum f i options)
  := by
  rw [query, Query.answer_bind, answer_queryStart, minimum, ok_iterate]
  show (queryRounds options options.iterations 0 (start f i)).answer f = _
  rw [queryRounds, Query.answer_iterate]
  simp only [answer_queryStep]
  rfl

/-- The search on `i` comes to the state `s` after `k` steps. -/
def Visited (f : α → α) (i : Interval α) (options : Options α) (k : Nat) (s : State α) : Prop :=
  Reached (fun k s => (.ok (step f options k s) : Except SolverError _)) (start f i) k s

theorem outcome_minimizeBetween (a b : α) (options : Options α) :
  (minimizeBetween f a b options).outcome = .ok (minimum f (.between a b) options)
  := by
  rw [minimizeBetween, Run.outcome_bind]
  rfl

end

/-! ### Brackets and best points -/

section

variable {α : Type} [RealScalar α] {s : State α} {u : Sample α}

theorem update_best :
  (update s u).best = if u.value ≤ s.best.value then u else s.best
  := by
  simp only [update, apply_ite State.best, ite_self]

theorem update_a :
  (update s u).a
    = if u.value ≤ s.best.value then if u.x ≥ s.best.x then s.best.x else s.a
      else if u.x < s.best.x then u.x else s.a
  := by
  simp only [update, apply_ite State.a, ite_self]

theorem update_b :
  (update s u).b
    = if u.value ≤ s.best.value then if u.x ≥ s.best.x then s.b else s.best.x
      else if u.x < s.best.x then s.b else u.x
  := by
  simp only [update, apply_ite State.b, ite_self]

theorem advance_best (f : α → α) (options : Options α) (s : State α) :
  (advance f options s).best
    = if f (trialPoint options s) ≤ s.best.value then
        ⟨trialPoint options s, f (trialPoint options s)⟩
      else s.best
  := update_best

theorem step_eq_next {f : α → α} {options : Options α} {k : Nat} {s' : State α}
    (h : step f options k s = .next s') :
  settled options s = false ∧ s' = advance f options s
  := by
  rw [step] at h
  split at h
  case isTrue => cases h
  case isFalse hsettled =>
    cases h
    exact ⟨eq_false_of_ne_true hsettled, rfl⟩

end

variable {α : Type} [ExactReal α] {f : α → α} {options : Options α} {s : State α} {u : Sample α}
  {tol d : α}

/-- The best point lies in the bracket, and has the value that it is said to have. -/
structure Consistent (f : α → α) (s : State α) : Prop where
  lower : s.a ≤ s.best.x
  upper : s.best.x ≤ s.b
  value : s.best.value = f s.best.x

theorem golden_pos :
  0 < (golden : α)
  := by
  rw [golden, ratio_eq]
  norm_num

theorem golden_lt_one :
  (golden : α) < 1
  := by
  rw [golden, ratio_eq]
  norm_num

theorem start_consistent {i : Interval α} (h : i.lower ≤ i.upper) :
  Consistent f (start f i)
  := by
  have hwidth := sub_nonneg.mpr h
  constructor
  · apply le_add_of_nonneg_right (mul_nonneg golden_pos.le hwidth)
  · have hpart := mul_le_of_le_one_left hwidth (golden_lt_one (α := α)).le
    show i.lower + golden * (i.upper - i.lower) ≤ i.upper
    linarith
  · rfl

/-- A consistent search stays consistent, with a smaller bracket, if the new sample has a point in
the bracket and the value there. -/
theorem update_consistent (h : Consistent f s) (hlower : s.a ≤ u.x) (hupper : u.x ≤ s.b)
    (hvalue : u.value = f u.x) :
  Consistent f (update s u) ∧ s.a ≤ (update s u).a ∧ (update s u).b ≤ s.b
  := by
  have hs := h.lower
  have hs' := h.upper
  refine ⟨⟨?_, ?_, ?_⟩, ?_, ?_⟩
  · rw [update_a, update_best]
    split_ifs <;> order
  · rw [update_b, update_best]
    split_ifs <;> order
  · rw [update_best]
    split_ifs
    · exact hvalue
    · exact h.value
  · rw [update_a]
    split_ifs <;> order
  · rw [update_b]
    split_ifs <;> order

/-! ### Trial points -/

theorem resolution_nonneg (h : 0 ≤ options.tolerance) (s : State α) :
  0 ≤ resolution options s
  := by
  have hroot := sqrt_nonneg (epsilon : α) epsilon_pos.le
  rw [resolution, abs_eq, nat_eq]
  positivity

/-- The larger part of the bracket is more than twice as long as the resolution. -/
theorem lt_of_not_settled (h : settled options s = false) :
  2 * resolution options s < |s.best.x - (s.a + s.b) / 2| + (s.b - s.a) / 2
  := by
  rw [settled, decide_eq_false_iff_not, not_le, middle, abs_eq, half_eq, nat_eq] at h
  rw [show (s.a + s.b) / 2 = 1 / 2 * (s.a + s.b) by ring]
  push_cast at h
  linarith

theorem lt_below_of_not_settled (h : settled options s = false) (hmiddle : middle s ≤ s.best.x) :
  2 * resolution options s < s.best.x - s.a
  := by
  have hlarge := lt_of_not_settled h
  rw [middle, half_eq] at hmiddle
  rw [abs_of_nonneg (by linarith)] at hlarge
  linarith

theorem lt_above_of_not_settled (h : settled options s = false) (hmiddle : s.best.x ≤ middle s) :
  2 * resolution options s < s.b - s.best.x
  := by
  have hlarge := lt_of_not_settled h
  rw [middle, half_eq] at hmiddle
  rw [abs_of_nonpos (by linarith)] at hlarge
  linarith

/-- A step `d` from the best point stays in the bracket, and so does a step of the length `tol` in
its direction. -/
structure Admits (tol : α) (s : State α) (d : α) : Prop where
  lower : s.a ≤ s.best.x + d
  upper : s.best.x + d ≤ s.b
  ahead : 0 ≤ d → s.best.x + tol ≤ s.b
  behind : d < 0 → s.a ≤ s.best.x - tol

theorem Admits.trial_mem (h : Admits tol s d) (hs : Consistent f s) (htol : 0 ≤ tol) :
  s.a ≤ trial tol s d ∧ trial tol s d ≤ s.b
  := by
  have hlower := hs.lower
  have hupper := hs.upper
  rw [trial]
  split_ifs with hlong hsign
  · exact ⟨h.lower, h.upper⟩
  · have := h.ahead hsign
    constructor <;> linarith
  · have := h.behind (not_le.mp hsign)
    constructor <;> linarith

theorem goldenSteps_admits (hs : Consistent f s) (h : settled options s = false)
    (htol : 0 ≤ resolution options s) :
  Admits (resolution options s) s (goldenSteps s).last
  := by
  have hlower := hs.lower
  have hupper := hs.upper
  have hpos := golden_pos (α := α)
  have hone := golden_lt_one (α := α)
  simp only [goldenSteps]
  split_ifs with hmiddle
  · have hlarge := lt_below_of_not_settled h hmiddle
    have hstep : golden * (s.a - s.best.x) < 0 := by
      apply mul_neg_of_pos_of_neg hpos
      linarith
    have hpart : s.a - s.best.x ≤ golden * (s.a - s.best.x) := by
      apply le_mul_of_le_one_left <;> linarith
    constructor <;> intros <;> linarith
  · have hlarge := lt_above_of_not_settled h (not_le.mp hmiddle).le
    have hstep : 0 < golden * (s.b - s.best.x) := by
      apply mul_pos hpos
      linarith
    have hpart : golden * (s.b - s.best.x) ≤ s.b - s.best.x := by
      apply mul_le_of_le_one_left <;> linarith
    constructor <;> intros <;> linarith

/-- An acceptable fraction is a step from the best point to the inside of the bracket. -/
theorem acceptable_mem {q : Fraction α} (h : acceptable s q = true) (hden : 0 ≤ q.den) :
  s.a < s.best.x + q.num / q.den ∧ s.best.x + q.num / q.den < s.b
  := by
  simp only [acceptable, Bool.and_eq_true, decide_eq_true_eq, abs_eq] at h
  obtain ⟨⟨hsmall, hlower⟩, hupper⟩ := h
  have hpos : 0 < q.den := by
    apply lt_of_le_of_ne hden
    intro hzero
    rw [← hzero, mul_zero, zero_mul, abs_zero] at hsmall
    exact (abs_nonneg _).not_gt hsmall
  have hbelow := (lt_div_iff₀' hpos).mpr hlower
  have habove := (div_lt_iff₀' hpos).mpr hupper
  constructor <;> linarith

theorem parabolicSteps_admits (hs : Consistent f s) (h : settled options s = false)
    (htol : 0 ≤ resolution options s) {q : Fraction α} (hq : acceptable s q = true)
    (hden : 0 ≤ q.den) :
  Admits (resolution options s) s (parabolicSteps (resolution options s) s q).last
  := by
  have hlower := hs.lower
  have hupper := hs.upper
  obtain ⟨hbelow, habove⟩ := acceptable_mem hq hden
  simp only [parabolicSteps, nat_eq, Nat.cast_ofNat]
  split_ifs with hnear hmiddle
  · have hlarge := lt_above_of_not_settled h hmiddle
    constructor <;> intros <;> linarith
  · have hlarge := lt_below_of_not_settled h (not_le.mp hmiddle).le
    constructor <;> intros <;> linarith
  · simp only [Bool.or_eq_true, decide_eq_true_eq, not_or, not_lt] at hnear
    obtain ⟨hnear, hnear'⟩ := hnear
    constructor <;> intros <;> linarith

theorem parabola_den_nonneg (s : State α) :
  0 ≤ (parabola s).den
  := by
  show 0 ≤ abs _
  rw [abs_eq]
  apply abs_nonneg

/-- The trial point of a search that is not settled lies in the bracket. -/
theorem trialPoint_mem (hs : Consistent f s) (h : settled options s = false)
    (htol : 0 ≤ options.tolerance) :
  s.a ≤ trialPoint options s ∧ trialPoint options s ≤ s.b
  := by
  have hres := resolution_nonneg htol s
  apply Admits.trial_mem _ hs hres
  rw [nextSteps]
  split_ifs with hparabola
  · rw [Bool.and_eq_true] at hparabola
    apply parabolicSteps_admits hs h hres hparabola.2 (parabola_den_nonneg s)
  · apply goldenSteps_admits hs h hres

/-! ### Rounds -/

/-- What a round keeps: the search stays consistent, its bracket shrinks, and its best value is at
most the best one before and the new one. -/
theorem advance_consistent (hs : Consistent f s) (h : settled options s = false)
    (htol : 0 ≤ options.tolerance) :
  Consistent f (advance f options s)
    ∧ s.a ≤ (advance f options s).a
    ∧ (advance f options s).b ≤ s.b
  := by
  obtain ⟨hlower, hupper⟩ := trialPoint_mem hs h htol
  exact update_consistent (s := { s with last := _, previous := _ }) ⟨hs.lower, hs.upper, hs.value⟩
    hlower hupper rfl

/-- The result `r` has the least value at the `points`, one of which it is. -/
structure Least (f : α → α) (points : List α) (r : ScalarResult α) : Prop where
  value : r.value = f r.x
  mem : r.x ∈ points
  le : ∀ p ∈ points, r.value ≤ f p

theorem Consistent.least_best (hs : Consistent f s) (iterations : Nat) (converged : Bool) :
  Least f [s.best.x] ⟨s.best.x, s.best.value, iterations, converged⟩
  := by
  constructor
  · exact hs.value
  · exact List.mem_singleton_self _
  · intro p hp
    rw [List.mem_singleton.mp hp]
    exact hs.value.le

/-- A least value after a round is a least value before it, with the trial point of the round. -/
theorem Least.advance {points : List α} {r : ScalarResult α} (hs : Consistent f s)
    (h : Least f ((advance f options s).best.x :: points) r) :
  Least f (s.best.x :: trialPoint options s :: points) r
  := by
  have hbest := h.le _ List.mem_cons_self
  have hmem := h.mem
  have hle := h.le
  rw [List.forall_mem_cons] at hle
  rw [advance_best] at hbest hmem
  split at hbest
  case isTrue hbetter =>
    dsimp only at hbest
    rw [if_pos hbetter] at hmem
    rw [hs.value] at hbetter
    use h.value, List.mem_cons_of_mem _ hmem
    simp only [List.forall_mem_cons]
    exact ⟨hbest.trans hbetter, hbest, hle.2⟩
  case isFalse hworse =>
    rw [if_neg hworse] at hmem
    rw [hs.value, not_le] at hworse
    constructor
    · exact h.value
    · rcases List.mem_cons.mp hmem with hmem | hmem
      · rw [hmem]
        exact List.mem_cons_self
      · exact List.mem_cons_of_mem _ (List.mem_cons_of_mem _ hmem)
    · simp only [List.forall_mem_cons]
      exact ⟨hbest, hbest.trans hworse.le, hle.2⟩

/-- The rounds from a consistent state look at points of the bracket only, and find the least value
of them and of the best point. -/
theorem queryRounds_least (hs : Consistent f s) (htol : 0 ≤ options.tolerance) (rounds i : Nat) :
  ∃ r, (queryRounds options rounds i s).answer f = .ok r
    ∧ Least f (s.best.x :: (queryRounds options rounds i s).asked f) r
    ∧ ∀ p ∈ (queryRounds options rounds i s).asked f, s.a ≤ p ∧ p ≤ s.b
  := by
  induction rounds generalizing i s with
  | zero => exact ⟨_, rfl, hs.least_best _ _, List.forall_mem_nil _⟩
  | succ rounds ih =>
    rw [queryRounds]
    cases h : settled options s with
    | true =>
      have hstep : queryStep options i s = pure (.done ⟨s.best.x, s.best.value, i, true⟩) := by
        rw [queryStep, h]
        rfl
      rw [iterate_succ, hstep]
      exact ⟨_, rfl, hs.least_best _ _, List.forall_mem_nil _⟩
    | false =>
      have hstep : (queryStep options i s).answer f = .ok (.next (advance f options s)) := by
        rw [answer_queryStep, step, h]
        rfl
      have hasked : (queryStep options i s).asked f = [trialPoint options s] := by
        rw [queryStep, h]
        rfl
      obtain ⟨hs', hlower, hupper⟩ := advance_consistent hs h htol
      obtain ⟨r, hok, hleast, hmem⟩ := ih hs' (i + 1)
      rw [Query.asked_iterate_next hstep, hasked, iterate_succ, Query.answer_bind, hstep]
      refine ⟨r, hok, hleast.advance hs, ?_⟩
      rw [List.singleton_append, List.forall_mem_cons]
      use trialPoint_mem hs h htol
      intro p hp
      exact ⟨hlower.trans (hmem p hp).1, (hmem p hp).2.trans hupper⟩

/-- A search on an interval looks at points of the interval only, and finds the least value of them.
-/
theorem query_least {i : Interval α} (hi : i.lower ≤ i.upper) (htol : 0 ≤ options.tolerance) :
  ∃ r, (query i options).answer f = .ok r
    ∧ Least f ((query i options).asked f) r
    ∧ ∀ p ∈ (query i options).asked f, i.lower ≤ p ∧ p ≤ i.upper
  := by
  have hs := start_consistent (f := f) hi
  obtain ⟨r, hok, hleast, hmem⟩ := queryRounds_least hs htol options.iterations 0
  have hasked : (query i options).asked f
      = (start f i).best.x :: (queryRounds options options.iterations 0 (start f i)).asked f := by
    rw [query, Query.asked_bind_of_ok (answer_queryStart f i)]
    rfl
  use r
  rw [query, Query.answer_bind, answer_queryStart, ← query, hasked, List.forall_mem_cons]
  exact ⟨hok, hleast, ⟨hs.lower, hs.upper⟩, hmem⟩

/-- The states that a search comes to are consistent. -/
theorem Visited.consistent {i : Interval α} {k : Nat} (h : Visited f i options k s)
    (hi : i.lower ≤ i.upper) (htol : 0 ≤ options.tolerance) :
  Consistent f s
  := by
  induction h with
  | start => exact start_consistent hi
  | next _ hstep ih =>
    obtain ⟨hsettled, rfl⟩ := step_eq_next (Except.ok.inj hstep)
    exact (advance_consistent ih hsettled htol).1

/-! ### The search -/

/-- With exact scalars, for every function, every two bounds and every tolerance that is not
negative: the search has a result; every point that it looks at lies between the bounds; the result
is one of these points, with its value, which is the least value seen; and in every state that it
comes to, the bracket contains the best point, and contains the bracket after the next round. The
points that are looked at are those of a query whose answer is the result. -/
theorem minimizeBetween_least (f : α → α) (a b : α) (options : Options α)
    (h : 0 ≤ options.tolerance) :
  ∃ r, (minimizeBetween f a b options).outcome = .ok r
    ∧ (query (.between a b) options).answer f = .ok r
    ∧ Least f ((query (.between a b) options).asked f) r
    ∧ (∀ p ∈ (query (.between a b) options).asked f, min a b ≤ p ∧ p ≤ max a b)
    ∧ ∀ k s, Visited f (.between a b) options k s →
        (s.a ≤ s.best.x ∧ s.best.x ≤ s.b)
          ∧ ∀ s', step f options k s = .next s' → s.a ≤ s'.a ∧ s'.b ≤ s.b
  := by
  have hi : (Interval.between a b).lower ≤ (Interval.between a b).upper := by
    rw [Bracket.between_eq]
    exact min_le_max
  obtain ⟨r, hanswer, hleast, hmem⟩ := query_least (f := f) hi h
  refine ⟨r, ?_, hanswer, hleast, ?_, ?_⟩
  · rw [outcome_minimizeBetween, ← answer_query, hanswer]
  · intro p hp
    have hbetween := hmem p hp
    rw [Bracket.between_eq] at hbetween
    exact hbetween
  · intro k s hvisited
    have hs := hvisited.consistent hi h
    refine ⟨⟨hs.lower, hs.upper⟩, ?_⟩
    intro s' hstep
    obtain ⟨hsettled, rfl⟩ := step_eq_next hstep
    exact (advance_consistent hs hsettled h).2

/-- A parabola is minimized between bounds in the wrong order. -/
theorem minimizeBetween_least_parabola :
  0 ≤ (Options.standard (1 / 1000) : Options ℝ).tolerance
    ∧ ∃ r, (minimizeBetween (fun x : ℝ => x * x) 2 (-1) (.standard (1 / 1000))).outcome = .ok r
      ∧ r.value = r.x * r.x
      ∧ -1 ≤ r.x
      ∧ r.x ≤ 2
  := by
  have htol : 0 ≤ (Options.standard (1 / 1000) : Options ℝ).tolerance := by
    show (0 : ℝ) ≤ 1 / 1000
    norm_num
  obtain ⟨r, hok, -, hleast, hmem, -⟩ :=
    minimizeBetween_least (fun x : ℝ => x * x) 2 (-1) (.standard (1 / 1000)) htol
  obtain ⟨hlower, hupper⟩ := hmem r.x hleast.mem
  rw [min_eq_right (by norm_num)] at hlower
  rw [max_eq_left (by norm_num)] at hupper
  exact ⟨htol, r, hok, hleast.value, hlower, hupper⟩

end Numerics.Brent
