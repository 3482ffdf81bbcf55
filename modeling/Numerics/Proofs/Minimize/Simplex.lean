import Mathlib.Algebra.Order.Field.Basic
import Mathlib.Tactic.Use
import Numerics.Minimize.Simplex
import Numerics.Proofs.Scalar.Numbers
import Numerics.Proofs.Sorting.Insertion
import Numerics.Proofs.Survey

/-!
# What the simplex keeps

The search of Nelder and Mead is a `query`: it asks for the values at the vertices of the first
simplex, and then in each round at the points that it tries. A simplex `Covers` the points that were
asked for so far if its vertices are among them, with their values, and if no value at them is below
the values at all vertices.

Whatever the arithmetic on the coordinates, every round keeps that, as long as the objective gives
numbers and numbers are compared as such. A vertex is replaced only in a sorted simplex, and the
best one is kept; and a point that was tried and is not kept has a value that is not below the value
of the best vertex or of the new one.
-/

namespace Numerics.Simplex

variable {α : Type} {n : Nat}

/-! ### Vertices -/

/-- The vertex at `x`. -/
def queryVertex (x : Vec α n) : Survey (Vec α n) α (Vertex α n) :=
  return ⟨x, ← Survey.value x⟩

/-- The simplex of the vertex `v` and the vertices at `xs`. -/
def queryOthers (v : Vertex α n) (xs : Fin n → Vec α n) :
    Survey (Vec α n) α (Vertices α n) := do
  let values ← Survey.values xs
  return Vec.ofFn (Fin.cases v fun i => ⟨xs i, values i⟩)

section

variable (f : Vec α n → α)

theorem answer_queryVertex_bind {β : Type} (x : Vec α n) (k : Vertex α n → Survey (Vec α n) α β) :
  (queryVertex x >>= k).answer f = (k (vertex f x)).answer f
  := rfl

theorem asked_queryVertex_bind {β : Type} (x : Vec α n) (k : Vertex α n → Survey (Vec α n) α β) :
  (queryVertex x >>= k).asked f = x :: (k (vertex f x)).asked f
  := rfl

theorem answer_queryOthers (v : Vertex α n) (xs : Fin n → Vec α n) :
  (queryOthers v xs).answer f
    = Vec.ofFn (Fin.cases v fun i => vertex f (xs i))
  := by
  rw [queryOthers, Survey.answer_bind, Survey.answer_values]
  rfl

theorem asked_queryOthers (v : Vertex α n) (xs : Fin n → Vec α n) :
  (queryOthers v xs).asked f = List.ofFn xs
  := by
  rw [queryOthers, Survey.asked_bind, Survey.asked_values, Survey.asked_pure, List.append_nil]

end

variable [RealScalar α]

/-! ### The search as a query -/

/-- The first simplex. -/
def queryStart (x₀ : Vec α n) (edge : α) : Survey (Vec α n) α (Vertices α n) := do
  queryOthers (← queryVertex x₀) fun i => x₀.ahead i edge

/-- The simplex with all vertices moved half way towards the first. -/
def queryShrink (s : Vertices α n) : Survey (Vec α n) α (Vertices α n) :=
  queryOthers (best s) fun i => (best s).x + ((s i.succ).x - (best s).x) * (half : α)

/-- The next simplex after a sorted one. -/
def queryImprove (s : Vertices α n) : Survey (Vec α n) α (Vertices α n) := do
  let r ← queryVertex (centroid s * (nat 2 : α) - (worst s).x)
  if r.value < (best s).value then
    let e ← queryVertex (centroid s * (nat 3 : α) - (worst s).x * (nat 2 : α))
    return replaceWorst s (if e.value < r.value then e else r)
  else if r.value < (secondWorst s).value then
    return replaceWorst s r
  else if r.value < (worst s).value then
    let c ← queryVertex (centroid s + (r.x - centroid s) * (half : α))
    if c.value ≤ r.value then return replaceWorst s c else queryShrink s
  else
    let c ← queryVertex (centroid s + ((worst s).x - centroid s) * (half : α))
    if c.value < (worst s).value then return replaceWorst s c else queryShrink s

/-- One round of the search. -/
def queryStep (tol : α) (i : Nat) (s : Vertices α n) :
    Survey (Vec α n) α (Round (Vertices α n) (Minimum α n)) :=
  if n = 0 ∨ collapsed (sorted s) tol then
    return .done ⟨(best (sorted s)).x, (best (sorted s)).value, i, true⟩
  else
    return .next (← queryImprove (sorted s))

/-- The rounds of the search from the simplex `s`. -/
def queryRounds (options : Options α) (rounds i : Nat) (s : Vertices α n) :
    Survey (Vec α n) α (Minimum α n) :=
  iterate (queryStep options.tolerance)
    (fun s => return ⟨(best (sorted s)).x, (best (sorted s)).value, options.iterations, false⟩)
    rounds i s

/-- The whole search from `x₀`. -/
def query (x₀ : Vec α n) (options : Options α) : Survey (Vec α n) α (Minimum α n) := do
  queryRounds options options.iterations 0 (← queryStart x₀ (options.spacing * nat 100))

section

variable (f : Vec α n → α)

theorem answer_queryStart (x₀ : Vec α n) (edge : α) :
  (queryStart x₀ edge).answer f = start f x₀ edge
  := by
  rw [queryStart, answer_queryVertex_bind, answer_queryOthers, start]
  congr 1
  funext i
  cases i using Fin.cases <;> rfl

theorem answer_queryShrink (s : Vertices α n) :
  (queryShrink s).answer f = shrink f s
  := by
  rw [queryShrink, answer_queryOthers, shrink]
  congr 1
  funext i
  cases i using Fin.cases <;> rfl

theorem answer_queryImprove (s : Vertices α n) :
  (queryImprove s).answer f = improve f s
  := by
  simp only [queryImprove, improve, answer_queryVertex_bind, Survey.answer_ite, Survey.answer_pure,
    answer_queryShrink, reflected, expanded, contracted]
  rfl

theorem answer_queryStep (tol : α) (i : Nat) (s : Vertices α n) :
  (queryStep tol i s).answer f = step f tol i s
  := by
  simp only [queryStep, step, Survey.answer_bind, Survey.answer_ite, Survey.answer_pure,
    answer_queryImprove]

theorem answer_query (x₀ : Vec α n) (options : Options α) :
  (query x₀ options).answer f = minimum f x₀ options
  := by
  rw [query, Survey.answer_bind, answer_queryStart, queryRounds, Survey.answer_iterate]
  simp only [answer_queryStep]
  rfl

end

/-! ### Simplices that the search comes to -/

/-- The search from `x₀` comes to the simplex `s` after `k` rounds. -/
def Visited (f : Vec α n → α) (x₀ : Vec α n) (options : Options α) (k : Nat) (s : Vertices α n) :
    Prop :=
  Reached (fun k s => (.ok (step f options.tolerance k s) : Except SolverError _))
    (start f x₀ (options.spacing * nat 100)) k s

theorem step_eq_next {f : Vec α n → α} {tol : α} {k : Nat} {s s' : Vertices α n}
    (h : step f tol k s = .next s') :
  n ≠ 0 ∧ s' = improve f (sorted s)
  := by
  simp only [step] at h
  split at h
  case isTrue => cases h
  case isFalse hdone =>
    cases h
    exact ⟨fun hn => hdone (.inl hn), rfl⟩

/-! ### Points that were tried -/

/-- The vertices are among the `points`, with their values, and no value at the points is below the
values at all vertices. -/
structure Covers (f : Vec α n → α) (points : List (Vec α n)) (s : Vertices α n) : Prop where
  value : ∀ i, (s i).value = f (s i).x
  mem : ∀ i, (s i).x ∈ points
  le : ∀ p ∈ points, ∃ i, (s i).value ≤ f p

/-- Moreover, no value is below that of the first vertex. -/
structure Ranked (f : Vec α n → α) (points : List (Vec α n)) (s : Vertices α n) : Prop where
  covers : Covers f points s
  best_le : ∀ p ∈ points, (best s).value ≤ f p

/-- The result `r` has the least value at the `points`, one of which it is. -/
structure Least (f : Vec α n → α) (points : List (Vec α n)) (r : Minimum α n) : Prop where
  value : r.value = f r.x
  mem : r.x ∈ points
  le : ∀ p ∈ points, r.value ≤ f p

section

variable {f : Vec α n → α} {points : List (Vec α n)} {s : Vertices α n}

theorem Ranked.least_best (h : Ranked f points s) (iterations : Nat) (converged : Bool) :
  Least f points ⟨(best s).x, (best s).value, iterations, converged⟩
  := by
  constructor
  · exact h.covers.value 0
  · exact h.covers.mem 0
  · exact h.best_le

theorem exists_eq_sorted (s : Vertices α n) (i : Fin (n + 1)) :
  ∃ j, (sorted s) i = s j
  := Vec.exists_eq_sort s i

theorem exists_sorted_eq (s : Vertices α n) (j : Fin (n + 1)) :
  ∃ i, (sorted s) i = s j
  := Vec.exists_sort_eq s j

theorem Covers.sorted (h : Covers f points s) :
  Covers f points (sorted s)
  := by
  constructor
  · intro i
    obtain ⟨j, hj⟩ := exists_eq_sorted s i
    rw [hj]
    exact h.value j
  · intro i
    obtain ⟨j, hj⟩ := exists_eq_sorted s i
    rw [hj]
    exact h.mem j
  · intro p hp
    obtain ⟨j, hj⟩ := h.le p hp
    obtain ⟨i, hi⟩ := exists_sorted_eq s j
    use i
    rw [hi]
    exact hj

theorem Covers.number (h : Covers f points s) (hf : ∀ x, IsNumber (f x)) (i : Fin (n + 1)) :
  IsNumber (s i).value
  := by
  rw [h.value]
  apply hf

/-- In the place of the last vertex of a simplex whose first is the best, another one covers what
was tried before it as well. -/
theorem Ranked.covers_replaceWorst (h : Ranked f points s) (hn : n ≠ 0) {tried : List (Vec α n)}
    {x : Vec α n} (hx : x ∈ tried)
    (htried : ∀ p ∈ tried, (best s).value ≤ f p ∨ f x ≤ f p) :
  Covers f (points ++ tried) (replaceWorst s (vertex f x))
  := by
  have hget : ∀ i, (replaceWorst s (vertex f x)) i = if Fin.last n = i then vertex f x else s i :=
    fun i => Vec.get_set s (Fin.last n) i (vertex f x)
  have hzero : Fin.last n ≠ 0 := fun h => hn (congrArg Fin.val h)
  have hkept : ∀ p, (best s).value ≤ f p → ∃ i, ((replaceWorst s (vertex f x)) i).value ≤ f p := by
    intro p hp
    use 0
    rw [hget, if_neg hzero]
    exact hp
  constructor
  · intro i
    rw [hget]
    split
    case isTrue => rfl
    case isFalse => exact h.covers.value i
  · intro i
    rw [hget, List.mem_append]
    split
    case isTrue => exact .inr hx
    case isFalse => exact .inl (h.covers.mem i)
  · intro p hp
    rw [List.mem_append] at hp
    obtain hp | hp := hp
    · exact hkept p (h.best_le p hp)
    · obtain hbest | hnew := htried p hp
      · exact hkept p hbest
      · use Fin.last n
        rw [hget, if_pos rfl]
        exact hnew

end

section

variable [OrderedNumbers α] {f : Vec α n → α} {points tried : List (Vec α n)} {s : Vertices α n}

theorem orders_value :
  Orders (fun v w : Vertex α n => decide (v.value < w.value)) fun v => IsNumber v.value
  := by
  constructor
  · intro v w hv hw hvw
    rw [decide_eq_true_iff] at hvw
    rw [decide_eq_false_iff_not, hw.not_lt hv]
    exact hv.le_of_lt hw hvw
  · intro u v w hu hv hw huv hvw
    rw [decide_eq_false_iff_not] at huv hvw ⊢
    rw [hv.not_lt hu] at huv
    rw [hw.not_lt hv] at hvw
    rw [hw.not_lt hu]
    exact OrderedNumbers.le_trans _ _ _ hu hv hw huv hvw

/-- The values of a sorted simplex do not decrease. -/
theorem sorted_value_le (hs : ∀ i, IsNumber (s i).value) {i j : Fin (n + 1)} (hij : i ≤ j) :
  ((sorted s) i).value ≤ ((sorted s) j).value
  := by
  have hsorted : ∀ i, IsNumber ((sorted s) i).value := by
    intro i
    obtain ⟨j, hj⟩ := exists_eq_sorted s i
    rw [hj]
    exact hs j
  obtain rfl | hij := hij.eq_or_lt
  · exact (hsorted i).le_refl
  · have horder := Vec.sort_ordered s orders_value hs hij
    rw [decide_eq_false_iff_not] at horder
    exact ((hsorted j).not_lt (hsorted i)).mp horder

/-- The first vertex of a sorted simplex is its best. -/
theorem best_sorted_le (hs : ∀ i, IsNumber (s i).value) (i : Fin (n + 1)) :
  (best (sorted s)).value ≤ ((sorted s) i).value
  := sorted_value_le hs (Fin.zero_le i)

theorem Covers.ranked_sorted (h : Covers f points s) (hf : ∀ x, IsNumber (f x)) :
  Ranked f points (Simplex.sorted s)
  := by
  use h.sorted
  intro p hp
  obtain ⟨i, hi⟩ := h.sorted.le p hp
  exact OrderedNumbers.le_trans _ _ _ (h.sorted.number hf 0) (h.sorted.number hf i) (hf p)
    (best_sorted_le (h.number hf) i) hi

/-- Vertices at further points, beside one that is not above any value. -/
theorem covers_queryOthers (hf : ∀ x, IsNumber (f x)) {v : Vertex α n} (hv : v.value = f v.x)
    (hmem : v.x ∈ points) (hle : ∀ p ∈ points, v.value ≤ f p) (xs : Fin n → Vec α n) :
  Covers f (points ++ List.ofFn xs) ((queryOthers v xs).answer f)
  := by
  rw [answer_queryOthers]
  constructor
  · intro i
    rw [Vec.get_ofFn]
    cases i using Fin.cases
    case zero => exact hv
    case succ => rfl
  · intro i
    rw [Vec.get_ofFn, List.mem_append, List.mem_ofFn]
    cases i using Fin.cases
    case zero => exact .inl hmem
    case succ i => exact .inr ⟨i, rfl⟩
  · intro p hp
    rw [List.mem_append, List.mem_ofFn] at hp
    obtain hp | ⟨i, rfl⟩ := hp
    · use 0
      rw [Vec.get_ofFn]
      exact hle p hp
    · use i.succ
      rw [Vec.get_ofFn, Fin.cases_succ]
      exact (hf (xs i)).le_refl

/-- A simplex that moved towards its best vertex covers what was tried before it as well. -/
theorem Ranked.covers_shrink (h : Ranked f points s) (hf : ∀ x, IsNumber (f x))
    (tried : List (Vec α n)) (htried : ∀ p ∈ tried, (best s).value ≤ f p) :
  Covers f (points ++ (tried ++ (queryShrink s).asked f)) ((queryShrink s).answer f)
  := by
  rw [queryShrink, asked_queryOthers, ← List.append_assoc]
  apply covers_queryOthers hf (h.covers.value 0)
  · exact List.mem_append_left _ (h.covers.mem 0)
  · rw [List.forall_mem_append]
    exact ⟨h.best_le, htried⟩

/-- The next simplex covers what was tried for it. -/
theorem Ranked.covers_improve (h : Ranked f points s) (hn : n ≠ 0) (hf : ∀ x, IsNumber (f x)) :
  Covers f (points ++ (queryImprove s).asked f) ((queryImprove s).answer f)
  := by
  have hbestNumber := h.covers.number hf 0
  have hworstNumber := h.covers.number hf (Fin.last n)
  have hbestWorst : (best s).value ≤ (worst s).value := by
    rw [worst, h.covers.value]
    exact h.best_le _ (h.covers.mem _)
  unfold queryImprove
  simp only [answer_queryVertex_bind, asked_queryVertex_bind, Survey.answer_ite, Survey.asked_ite,
    Survey.answer_pure, Survey.asked_pure]
  set r := centroid s * (nat 2 : α) - (worst s).x
  set e := centroid s * (nat 3 : α) - (worst s).x * (nat 2 : α)
  set c := centroid s + ((vertex f r).x - centroid s) * (half : α)
  set c' := centroid s + ((worst s).x - centroid s) * (half : α)
  by_cases hbest : (vertex f r).value < (best s).value
  · rw [if_pos hbest, if_pos hbest]
    split_ifs with hexpand
    · apply h.covers_replaceWorst hn (by simp)
      rw [List.forall_mem_cons, List.forall_mem_singleton]
      exact ⟨.inr ((hf e).le_of_lt (hf r) hexpand), .inr (hf e).le_refl⟩
    · apply h.covers_replaceWorst hn (by simp)
      rw [List.forall_mem_cons, List.forall_mem_singleton]
      exact ⟨.inr (hf r).le_refl, .inr (((hf e).not_lt (hf r)).mp hexpand)⟩
  · have hr : (best s).value ≤ f r := ((hf r).not_lt hbestNumber).mp hbest
    rw [if_neg hbest, if_neg hbest]
    split_ifs with hsecond hworst hc hc
    · apply h.covers_replaceWorst hn (List.mem_singleton_self r)
      rw [List.forall_mem_singleton]
      exact .inr (hf r).le_refl
    · apply h.covers_replaceWorst hn (by simp)
      rw [List.forall_mem_cons, List.forall_mem_singleton]
      exact ⟨.inl hr, .inr (hf c).le_refl⟩
    · have hrc : f r ≤ f c := (hf c).le_of_not_le (hf r) hc
      apply h.covers_shrink hf [r, c]
      rw [List.forall_mem_cons, List.forall_mem_singleton]
      exact ⟨hr, OrderedNumbers.le_trans _ _ _ hbestNumber (hf r) (hf c) hr hrc⟩
    · apply h.covers_replaceWorst hn (by simp)
      rw [List.forall_mem_cons, List.forall_mem_singleton]
      exact ⟨.inl hr, .inr (hf c').le_refl⟩
    · have hworstc : (worst s).value ≤ f c' := ((hf c').not_lt hworstNumber).mp hc
      apply h.covers_shrink hf [r, c']
      rw [List.forall_mem_cons, List.forall_mem_singleton]
      exact ⟨hr, OrderedNumbers.le_trans _ _ _ hbestNumber hworstNumber (hf c') hbestWorst hworstc⟩

/-! ### The search -/

theorem covers_queryStart (hf : ∀ x, IsNumber (f x)) (x₀ : Vec α n) (edge : α) :
  Covers f ((queryStart x₀ edge).asked f) ((queryStart x₀ edge).answer f)
  := by
  rw [queryStart, answer_queryVertex_bind, asked_queryVertex_bind, asked_queryOthers,
    ← List.singleton_append]
  apply covers_queryOthers hf rfl (List.mem_singleton_self x₀)
  rw [List.forall_mem_singleton]
  exact (hf x₀).le_refl

/-- The rounds of the search end with the best point that was tried before or in them. -/
theorem Covers.least_queryRounds (h : Covers f points s) (hf : ∀ x, IsNumber (f x))
    (options : Options α) (rounds i : Nat) :
  Least f (points ++ (queryRounds options rounds i s).asked f)
    ((queryRounds options rounds i s).answer f)
  := by
  induction rounds generalizing i s points with
  | zero =>
    rw [queryRounds, iterate_zero, Survey.asked_pure, List.append_nil]
    exact (h.ranked_sorted hf).least_best _ _
  | succ rounds ih =>
    rw [queryRounds]
    by_cases hdone : n = 0 ∨ collapsed (Simplex.sorted s) options.tolerance
    · have hstep : queryStep options.tolerance i s = return .done _ := if_pos hdone
      obtain ⟨hanswer, hasked⟩ := Survey.iterate_done (congrArg (Survey.answer f) hstep) _ rounds
      rw [hanswer, hasked, hstep, Survey.asked_pure, List.append_nil]
      exact (h.ranked_sorted hf).least_best _ _
    · have hstep : queryStep options.tolerance i s
          = return .next (← queryImprove (Simplex.sorted s)) := if_neg hdone
      obtain ⟨hanswer, hasked⟩ := Survey.iterate_next
        ((congrArg (Survey.answer f) hstep).trans (Survey.answer_bind _ _ _)) _ rounds
      have hn : n ≠ 0 := fun hn => hdone (.inl hn)
      rw [hanswer, hasked, hstep, Survey.asked_bind, Survey.asked_pure, List.append_nil,
        ← List.append_assoc]
      exact ih ((h.ranked_sorted hf).covers_improve hn hf) (i + 1)

theorem least_query (hf : ∀ x, IsNumber (f x)) (x₀ : Vec α n) (options : Options α) :
  Least f ((query x₀ options).asked f) (minimum f x₀ options)
    ∧ x₀ ∈ (query x₀ options).asked f
  := by
  rw [← answer_query, query, Survey.asked_bind, Survey.answer_bind]
  use (covers_queryStart hf x₀ _).least_queryRounds hf options options.iterations 0
  apply List.mem_append_left
  rw [queryStart, asked_queryVertex_bind]
  exact List.mem_cons_self

theorem Visited.covers {x₀ : Vec α n} {options : Options α} {k : Nat}
    (h : Visited f x₀ options k s) (hf : ∀ x, IsNumber (f x)) :
  ∃ points, Covers f points s
  := by
  induction h with
  | start =>
    rw [← answer_queryStart]
    exact ⟨_, covers_queryStart hf x₀ _⟩
  | next _ hstep ih =>
    obtain ⟨points, hs⟩ := ih
    obtain ⟨hn, rfl⟩ := step_eq_next (Except.ok.inj hstep)
    rw [← answer_queryImprove]
    exact ⟨_, (hs.ranked_sorted hf).covers_improve hn hf⟩

end

section

variable {f : Vec α n → α} {x₀ : Vec α n} {options : Options α}

/-- A search that converges ends at the best vertex of a simplex that it sorted. -/
theorem minimum_converged (h : (minimum f x₀ options).converged = true) :
  ∃ s, Visited f x₀ options (minimum f x₀ options).iterations s
    ∧ (n = 0 ∨ collapsed (sorted s) options.tolerance)
    ∧ best (sorted s) = ⟨(minimum f x₀ options).x, (minimum f x₀ options).value⟩
  := by
  obtain ⟨k, s, hs, ⟨-, hlast⟩ | ⟨-, hlast⟩⟩ := exists_reached_id (ε := SolverError)
    (fun k s => step f options.tolerance k s)
    (fun s => ⟨(best (sorted s)).x, (best (sorted s)).value, options.iterations, false⟩)
    options.iterations (start f x₀ (options.spacing * nat 100))
  · rw [← minimum] at hlast
    simp only [step] at hlast
    split at hlast
    case isTrue hcollapsed =>
      rw [← Round.done.inj hlast]
      exact ⟨s, hs, hcollapsed, rfl⟩
    case isFalse => cases hlast
  · rw [minimum, ← hlast] at h
    cases h

/-- The vertices of a collapsed simplex agree with the first. -/
theorem agree_of_collapsed {s : Vertices α n} {tol : α} (h : collapsed s tol = true)
    {i : Fin (n + 1)} (hi : i ≠ 0) :
  abs ((s i).value - (best s).value) ≤ tol ∧ ((s i).x - (best s).x).maxAbs ≤ tol
  := by
  have hmem : s i ∈ s.toList.tail := by
    rw [Vec.toList_eq_ofFn, List.ofFn_succ, List.tail_cons, List.mem_ofFn]
    use i.pred hi
    rw [Fin.succ_pred]
  rw [collapsed, List.all_eq_true] at h
  have hall := h _ hmem
  rw [Bool.and_eq_true, decide_eq_true_iff, decide_eq_true_iff] at hall
  exact hall

/-- Whatever the arithmetic on the coordinates, as long as numbers are compared as such and the
objective gives numbers. The result of the search is the best of all points that it looked at, with
its value; these are the points of a query whose answer is the result, whatever the objective, and
the start is among them. If the search converges, then it sorted a simplex whose first vertex is the
result, and all other vertices agree with it up to the tolerance, in value and in place. -/
theorem minimum_least [OrderedNumbers α] (hf : ∀ x, IsNumber (f x)) (x₀ : Vec α n)
    (options : Options α) :
  (∀ g, (query x₀ options).answer g = minimum g x₀ options)
    ∧ Least f ((query x₀ options).asked f) (minimum f x₀ options)
    ∧ (minimum f x₀ options).value ≤ f x₀
    ∧ ((minimum f x₀ options).converged = true →
      ∃ s, Visited f x₀ options (minimum f x₀ options).iterations s
        ∧ best (sorted s) = ⟨(minimum f x₀ options).x, (minimum f x₀ options).value⟩
        ∧ ∀ i, i ≠ 0 →
          abs (f ((sorted s) i).x - (minimum f x₀ options).value) ≤ options.tolerance
            ∧ (((sorted s) i).x - (minimum f x₀ options).x).maxAbs ≤ options.tolerance)
  := by
  obtain ⟨hleast, hstart⟩ := least_query hf x₀ options
  refine ⟨fun g => answer_query g x₀ options, hleast, hleast.le x₀ hstart, ?_⟩
  intro hconverged
  obtain ⟨s, hvisited, hcollapsed, hbest⟩ := minimum_converged hconverged
  use s, hvisited, hbest
  intro i hi
  have hn : n ≠ 0 := by
    rintro rfl
    exact hi (Subsingleton.elim (α := Fin 1) i 0)
  obtain ⟨points, hs⟩ := hvisited.covers hf
  have hagree := agree_of_collapsed (hcollapsed.resolve_left hn) hi
  rw [hbest, hs.sorted.value] at hagree
  exact hagree

end

/-- A ramp, whose first simplex has collapsed already as far as the tolerance can tell. -/
theorem minimum_least_ramp :
  let f : Vec ℚ 2 → ℚ := fun x => x 0 + x 1
  (∀ x, IsNumber (f x))
    ∧ (minimum f 0 (.standard 1)).converged = true
    ∧ (minimum f 0 (.standard 1)).value ≤ f 0
    ∧ ∃ s, Visited f 0 (.standard 1) (minimum f 0 (.standard 1)).iterations s
      ∧ ∀ i, i ≠ 0 → abs (f ((sorted s) i).x - (minimum f 0 (.standard 1)).value) ≤ 1
  := by
  intro f
  have hf : ∀ x, IsNumber (f x) := fun _ => rfl
  have hconverged : (minimum f 0 (.standard 1)).converged = true := by decide +kernel
  obtain ⟨-, -, hvalue, hs⟩ := minimum_least hf 0 (.standard 1)
  obtain ⟨s, hvisited, -, hagree⟩ := hs hconverged
  exact ⟨hf, hconverged, hvalue, s, hvisited, fun i hi => (hagree i hi).1⟩

end Numerics.Simplex
