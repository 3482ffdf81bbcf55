import Mathlib.Algebra.Order.Field.Basic
import Mathlib.Data.Fin.VecNotation
import Mathlib.Tactic.Use
import Numerics.Proofs.Iteration
import Numerics.Proofs.Minimize.Simplex
import Numerics.Proofs.Scalar.Machine

/-!
# The simplex in place

A simplex can be kept in a `Store`, where the vertices have numbers and are read, written and
exchanged one at a time. The vertex zero has a place of its own, so the places of the others are one
less than their numbers. There is no vertex with a number above `n`, and to ask for one is to fail,
in `get?` as in `set?` and `swap?`.

Exchanging neighbours, `Store.sort?` lets one vertex after the other sink to where it belongs. What
it leaves is what insertion into a list gives, and all numbers that it uses on the way are those of
vertices. The same is true of the whole search on a store, `Store.minimum?`: it never fails, and it
ends as the search on vectors of vertices does. So what holds of sorted simplices holds in place,
and what holds in place is that the sort is a stable one.
-/

namespace Numerics.Simplex

variable {α : Type} {n : Nat}

/-- The vertices of a simplex by number, with a place of its own for the vertex zero. -/
@[ext]
structure Store (α : Type) (n : Nat) where
  best : Vertex α n
  rest : Vec (Vertex α n) n

namespace Store

/-! ### Access by number -/

/-- The vertex of a number. -/
def get? (s : Store α n) : Nat → Option (Vertex α n)
  | 0 => some s.best
  | i + 1 => if h : i < n then some (s.rest ⟨i, h⟩) else none

/-- The store with `v` for the vertex of a number. -/
def set? (s : Store α n) (v : Vertex α n) : Nat → Option (Store α n)
  | 0 => some ⟨v, s.rest⟩
  | i + 1 => if h : i < n then some ⟨s.best, s.rest.set ⟨i, h⟩ v⟩ else none

/-- The store with the vertices of two numbers exchanged, one of which is not zero. -/
def swap? (s : Store α n) : Nat → Nat → Option (Store α n)
  | 0, 0 => none
  | 0, j + 1 | j + 1, 0 =>
    if h : j < n then some ⟨s.rest ⟨j, h⟩, s.rest.set ⟨j, h⟩ s.best⟩ else none
  | i + 1, j + 1 =>
    if h : i < n ∧ j < n then some ⟨s.best, s.rest.swap ⟨i, h.1⟩ ⟨j, h.2⟩⟩ else none

/-- The vertices in the order of their numbers. -/
def toList (s : Store α n) : List (Vertex α n) :=
  s.best :: s.rest.toList

theorem length_toList (s : Store α n) :
  s.toList.length = n + 1
  := by
  rw [toList, List.length_cons, Vec.length_toList]

theorem get?_eq_getElem? (s : Store α n) (k : Nat) :
  s.get? k = s.toList[k]?
  := by
  cases k with
  | zero => rfl
  | succ i =>
    rw [toList, List.getElem?_cons_succ, Vec.toList_eq_ofFn, List.getElem?_ofFn]
    rfl

/-- Two neighbours are exchanged, and nothing else. -/
theorem exists_swap? (s : Store α n) {j : Nat} (hj : j < n) :
  ∃ t, s.swap? j (j + 1) = some t
    ∧ ∀ k, t.get? k = if k = j then s.get? (j + 1) else if k = j + 1 then s.get? j else s.get? k
  := by
  cases j with
  | zero =>
    refine ⟨_, dif_pos hj, ?_⟩
    intro k
    cases k with
    | zero => simp [get?, hj]
    | succ k =>
      simp only [get?, Vec.get_set]
      grind
  | succ j =>
    refine ⟨_, dif_pos ⟨Nat.lt_of_succ_lt hj, hj⟩, ?_⟩
    intro k
    cases k with
    | zero => simp [get?]
    | succ k =>
      simp only [get?, Vec.get_swap]
      grind

/-- Neighbours in the list are exchanged. -/
theorem exists_swap?_toList {s : Store α n} {ps qs : List (Vertex α n)} {v w : Vertex α n}
    (h : s.toList = ps ++ v :: w :: qs) :
  ∃ t, s.swap? ps.length (ps.length + 1) = some t ∧ t.toList = ps ++ w :: v :: qs
  := by
  have hlength : ps.length + (qs.length + 2) = n + 1 := by
    rw [← s.length_toList, h, List.length_append, List.length_cons, List.length_cons]
  obtain ⟨t, ht, hget⟩ := s.exists_swap? (j := ps.length) (by omega)
  use t, ht
  apply List.ext_getElem?
  intro k
  rw [← get?_eq_getElem?, hget]
  simp only [get?_eq_getElem?, h]
  grind

/-! ### Vectors of vertices -/

/-- The vertices of `s`, by number. -/
def ofVertices (s : Vertices α n) : Store α n :=
  ⟨Simplex.best s, Vec.ofFn fun i => s i.succ⟩

theorem toList_ofVertices (s : Vertices α n) :
  (ofVertices s).toList = s.toList
  := by
  rw [toList, Vec.toList_eq_ofFn, Vec.toList_eq_ofFn, List.ofFn_succ]
  congr 2
  funext i
  apply Vec.get_ofFn

theorem get?_ofVertices (s : Vertices α n) (k : Nat) :
  (ofVertices s).get? k = if h : k < n + 1 then some (s ⟨k, h⟩) else none
  := by
  rw [get?_eq_getElem?, toList_ofVertices, Vec.toList_eq_ofFn, List.getElem?_ofFn]

theorem ofVertices_set_zero (s : Vertices α n) (v : Vertex α n) :
  ofVertices (s.set 0 v) = ⟨v, (ofVertices s).rest⟩
  := by
  ext : 1
  · exact (Vec.get_set s 0 0 v).trans (if_pos rfl)
  · ext i : 1
    simp only [ofVertices, Vec.get_ofFn, Vec.get_set]
    exact if_neg (Fin.succ_ne_zero i).symm

theorem ofVertices_set_succ (s : Vertices α n) (v : Vertex α n) (i : Fin n) :
  ofVertices (s.set i.succ v) = ⟨(ofVertices s).best, (ofVertices s).rest.set i v⟩
  := by
  ext : 1
  · exact (Vec.get_set s i.succ 0 v).trans (if_neg (Fin.succ_ne_zero i))
  · ext j : 1
    simp only [ofVertices, Vec.get_ofFn, Vec.get_set, Fin.succ_inj]

theorem set?_ofVertices (s : Vertices α n) (v : Vertex α n) (i : Fin (n + 1)) :
  (ofVertices s).set? v i = some (ofVertices (s.set i v))
  := by
  cases i using Fin.cases with
  | zero => rw [ofVertices_set_zero, Fin.val_zero, set?]
  | succ i => rw [ofVertices_set_succ, Fin.val_succ, set?, dif_pos i.isLt]

/-- A store is determined by its vertices. -/
theorem toList_injective {s t : Store α n} (h : s.toList = t.toList) :
  s = t
  := by
  obtain ⟨hbest, hrest⟩ := List.cons.inj h
  rw [Vec.toList_eq_ofFn, Vec.toList_eq_ofFn] at hrest
  ext : 1
  · exact hbest
  · ext i : 1
    exact congrFun (List.ofFn_injective hrest) i

variable [RealScalar α]

/-! ### Sorting -/

/-- Let the vertex of a number sink, past all neighbours that it has a lower value than. -/
def sink? (s : Store α n) : Nat → Option (Store α n)
  | 0 => some s
  | j + 1 => do
    let v ← s.get? (j + 1)
    let w ← s.get? j
    if v.value < w.value then
      let t ← s.swap? j (j + 1)
      t.sink? j
    else
      return s

/-- Let the vertices sink one by one, from the number one on. -/
def sort? (s : Store α n) : Option (Store α n) :=
  (List.range' 1 n).foldlM sink? s

/-- A vertex sinks as it is inserted into the list of those before it, which starts with the nearest
one. -/
theorem exists_sink? {s : Store α n} {ys zs : List (Vertex α n)} {x : Vertex α n}
    (h : s.toList = ys.reverse ++ x :: zs) :
  ∃ t, s.sink? ys.length = some t
    ∧ t.toList = (passBack (fun v w => v.value < w.value) x ys).reverse ++ zs
  := by
  induction ys generalizing s zs with
  | nil => exact ⟨s, rfl, h⟩
  | cons y ys ih =>
    rw [List.reverse_cons, List.append_assoc, List.singleton_append] at h
    have hx : s.get? (ys.length + 1) = some x := by
      rw [get?_eq_getElem?, h]
      simp
    have hy : s.get? ys.length = some y := by
      rw [get?_eq_getElem?, h]
      simp
    rw [List.length_cons, sink?, hx, hy, passBack]
    simp only [Option.bind_eq_bind, Option.bind_some, decide_eq_true_eq]
    split
    case isTrue =>
      obtain ⟨t, ht, hlist⟩ := exists_swap?_toList h
      obtain ⟨u, hu, hulist⟩ := ih hlist
      rw [List.length_reverse] at ht
      refine ⟨u, ?_, ?_⟩
      · rw [ht, Option.bind_some, hu]
      · rw [hulist, List.reverse_cons, List.append_assoc, List.singleton_append]
    case isFalse =>
      refine ⟨s, rfl, ?_⟩
      rw [h, List.reverse_cons, List.reverse_cons, List.append_assoc, List.append_assoc]
      rfl

/-- The vertices of `ys`, which are written from their end, have sunk, and those of `xs` follow. -/
theorem exists_foldlM_sink? {s : Store α n} {ys xs : List (Vertex α n)}
    (h : s.toList = ys.reverse ++ xs) :
  ∃ t, (List.range' ys.length xs.length).foldlM sink? s = some t
    ∧ t.toList
      = (xs.foldl (fun sorted x => passBack (fun v w => v.value < w.value) x sorted) ys).reverse
  := by
  induction xs generalizing s ys with
  | nil =>
    rw [List.append_nil] at h
    exact ⟨s, rfl, h⟩
  | cons x xs ih =>
    obtain ⟨t, ht, hlist⟩ := exists_sink? h
    obtain ⟨u, hu, hulist⟩ := ih hlist
    rw [(passBack_perm _ x ys).length_eq, List.length_cons] at hu
    refine ⟨u, ?_, hulist⟩
    rw [List.length_cons, List.range'_succ, List.foldlM_cons, ht]
    exact hu

/-- Sorting in place does not fail, and sorts. -/
theorem sort?_ofVertices (s : Vertices α n) :
  (ofVertices s).sort? = some (ofVertices (sorted s))
  := by
  have hstart : (ofVertices s).toList
      = [(ofVertices s).best].reverse ++ (ofVertices s).rest.toList := rfl
  obtain ⟨t, ht, hlist⟩ := exists_foldlM_sink? hstart
  have hsorted : t = ofVertices (sorted s) := by
    apply toList_injective
    rw [hlist, toList_ofVertices, sorted, Vec.toList_sort, ← toList_ofVertices]
    rfl
  rw [Vec.length_toList, hsorted] at ht
  exact ht

/-! ### The search in place -/

/-- The mean of the vertices with the numbers below `n`, of which there has to be one. -/
def centroid? (s : Store α n) : Option (Vec α n) :=
  if n = 0 then
    none
  else
    some (Fin.foldl (n - 1) (fun c i => c + (s.rest ⟨i, by omega⟩).x) s.best.x / (nat n : α))

/-- Whether all further vertices agree with the best up to `tol`, in value and in place. -/
def collapsed (s : Store α n) (tol : α) : Bool :=
  s.rest.toList.all fun v =>
    abs (v.value - s.best.value) ≤ tol && (v.x - s.best.x).maxAbs ≤ tol

/-- The store with all vertices moved half way towards the best. -/
def shrink (f : Vec α n → α) (s : Store α n) : Store α n :=
  ⟨s.best, Vec.ofFn fun i => vertex f (s.best.x + ((s.rest i).x - s.best.x) * (half : α))⟩

/-- The first store of a search. -/
def start (f : Vec α n → α) (x₀ : Vec α n) (edge : α) : Store α n :=
  ⟨vertex f x₀, Vec.ofFn fun i => vertex f (x₀.ahead i edge)⟩

/-- The next store after a sorted one. -/
def improve? (f : Vec α n → α) (s : Store α n) : Option (Store α n) := do
  let center ← s.centroid?
  let worst ← s.get? n
  let r := vertex f (center * (nat 2 : α) - worst.x)
  if r.value < s.best.value then
    let e := vertex f (center * (nat 3 : α) - worst.x * (nat 2 : α))
    s.set? (if e.value < r.value then e else r) n
  else
    let second ← s.get? (n - 1)
    if r.value < second.value then
      s.set? r n
    else if r.value < worst.value then
      let c := vertex f (center + (r.x - center) * (half : α))
      if c.value ≤ r.value then s.set? c n else return s.shrink f
    else
      let c := vertex f (center + (worst.x - center) * (half : α))
      if c.value < worst.value then s.set? c n else return s.shrink f

/-- One round of the search. -/
def step? (f : Vec α n → α) (tol : α) (i : Nat) (s : Store α n) :
    Option (Round (Store α n) (Minimum α n)) := do
  let s ← s.sort?
  if n = 0 ∨ s.collapsed tol then
    return .done ⟨s.best.x, s.best.value, i, true⟩
  else
    return .next (← s.improve? f)

/-- The whole search from `x₀`. -/
def minimum? (f : Vec α n → α) (x₀ : Vec α n) (options : Options α) : Option (Minimum α n) :=
  iterate (step? f options.tolerance)
    (fun s => do
      let s ← s.sort?
      return ⟨s.best.x, s.best.value, options.iterations, false⟩)
    options.iterations 0 (start f x₀ (options.spacing * nat 100))

theorem start_eq (f : Vec α n → α) (x₀ : Vec α n) (edge : α) :
  start f x₀ edge = ofVertices (Simplex.start f x₀ edge)
  := by
  ext : 1
  · show _ = (Simplex.start f x₀ edge) 0
    rw [Simplex.start, Vec.get_ofFn]
    rfl
  · ext i : 1
    simp only [start, ofVertices, Simplex.start, Vec.get_ofFn, Fin.succ_ne_zero, Fin.pred_succ]
    rfl

theorem shrink_ofVertices (f : Vec α n → α) (s : Vertices α n) :
  (ofVertices s).shrink f = ofVertices (Simplex.shrink f s)
  := by
  ext : 1
  · show _ = (Simplex.shrink f s) 0
    rw [Simplex.shrink, Vec.get_ofFn]
    rfl
  · ext i : 1
    simp only [shrink, ofVertices, Simplex.shrink, Vec.get_ofFn, Fin.succ_ne_zero]
    rfl

theorem collapsed_ofVertices (s : Vertices α n) (tol : α) :
  (ofVertices s).collapsed tol = Simplex.collapsed s tol
  := by
  rw [Simplex.collapsed, ← toList_ofVertices]
  rfl

theorem centroid?_ofVertices (hn : n ≠ 0) (s : Vertices α n) :
  (ofVertices s).centroid? = some (Simplex.centroid s)
  := by
  rw [centroid?, if_neg hn]
  simp only [ofVertices, Vec.get_ofFn]
  rfl

/-- The next store does not fail, and is the next simplex. -/
theorem improve?_ofVertices (hn : n ≠ 0) (f : Vec α n → α) (s : Vertices α n) :
  (ofVertices s).improve? f = some (ofVertices (improve f s))
  := by
  have hworst : (ofVertices s).get? n = some (worst s) := by
    rw [get?_ofVertices, dif_pos n.lt_succ_self]
    rfl
  have hsecond : (ofVertices s).get? (n - 1) = some (secondWorst s) := by
    rw [get?_ofVertices, dif_pos (by omega)]
    rfl
  have hset : ∀ v, (ofVertices s).set? v n = some (ofVertices (replaceWorst s v)) :=
    fun v => set?_ofVertices s v (Fin.last n)
  simp only [improve?, improve, centroid?_ofVertices hn, hworst, hsecond, hset, shrink_ofVertices,
    Option.bind_eq_bind, Option.bind_some, apply_ite some, apply_ite ofVertices]
  rfl

theorem step?_ofVertices (f : Vec α n → α) (tol : α) (i : Nat) (s : Vertices α n) :
  step? f tol i (ofVertices s) = some ((step f tol i s).map ofVertices)
  := by
  simp only [step?, step, sort?_ofVertices, collapsed_ofVertices, Option.bind_eq_bind,
    Option.bind_some]
  split
  case isTrue => rfl
  case isFalse h =>
    rw [improve?_ofVertices fun hn => h (.inl hn)]
    rfl

/-- The search in place does not fail, and ends as the search does. -/
theorem minimum?_eq (f : Vec α n → α) (x₀ : Vec α n) (options : Options α) :
  minimum? f x₀ options = some (minimum f x₀ options)
  := by
  have hsearch : some (minimum f x₀ options) = _ := pure_iterate (m := Option) _ _ _ _ _
  rw [hsearch]
  apply iterate_eq_of_views (R := fun s s' => s = ofVertices s')
  · rintro i _ s rfl
    refine ⟨_, some (step f options.tolerance i s), ofVertices, id,
      step?_ofVertices f options.tolerance i s, ?_, fun _ => rfl⟩
    cases step f options.tolerance i s <;> rfl
  · rintro _ s rfl
    rw [sort?_ofVertices]
    rfl
  · apply start_eq

end Store

/-! ### A stable sort -/

/-- The vertices have numbers for their values, in any arithmetic where numbers are compared as
such. Sorting them in place uses no number that is too high, and leaves them in the order of their
values. It permutes them, and any two that were in order before, as those of equal value are, keep
their order. What it leaves are the vertices of the sorted simplex, and the whole search in place
ends as the search does, without using a number that is too high. -/
theorem sorted_stable [RealScalar α] [OrderedNumbers α] (s : Vertices α n)
    (hs : ∀ i, IsNumber (s i).value) :
  (∃ (t : Store α n) (σ : Equiv.Perm (Fin (n + 1))),
    (Store.ofVertices s).sort? = some t
      ∧ t = .ofVertices (sorted s)
      ∧ (∀ k, t.get? k = if h : k < n + 1 then some (s (σ ⟨k, h⟩)) else none)
      ∧ (∀ i j, i ≤ j → (s (σ i)).value ≤ (s (σ j)).value)
      ∧ ∀ i j, i < j → (s i).value ≤ (s j).value → σ.symm i < σ.symm j)
    ∧ ∀ f x₀ options, Store.minimum? f x₀ options = some (minimum f x₀ options : Minimum α n)
  := by
  obtain ⟨σ, hσ, hstable⟩ := s.exists_stable_perm_sort fun v w => v.value < w.value
  refine ⟨⟨.ofVertices (sorted s), σ, Store.sort?_ofVertices s, rfl, ?_, ?_, ?_⟩,
    Store.minimum?_eq⟩
  · intro k
    rw [Store.get?_ofVertices]
    simp only [sorted, hσ]
  · intro i j hij
    rw [← hσ, ← hσ]
    exact sorted_value_le hs hij
  · intro i j hij hle
    rw [← not_le]
    intro hpassed
    have hlt := lt_of_le_of_ne hpassed (σ.symm.injective.ne hij.ne')
    obtain hkept | hvalue := hstable _ _ hlt
    · rw [σ.apply_symm_apply, σ.apply_symm_apply] at hkept
      exact hkept.not_gt hij
    · rw [σ.apply_symm_apply, σ.apply_symm_apply, decide_eq_true_iff] at hvalue
      exact ((hs j).not_lt (hs i)).mpr hle hvalue

/-- Three vertices, two of which are at the two zeros. -/
theorem sorted_stable_zeros :
  let s : Vertices Float 2 :=
    Vec.ofFn ![⟨Vec.ofFn ![1, 1], 0⟩, ⟨Vec.ofFn ![2, 2], -1⟩, ⟨Vec.ofFn ![3, 3], -0⟩]
  (∀ i, IsNumber (s i).value)
    ∧ ∃ (t : Store Float 2) (σ : Equiv.Perm (Fin 3)),
      (Store.ofVertices s).sort? = some t
        ∧ t.get? 2 = some (s (σ 2))
        ∧ t.get? 3 = none
        ∧ (s (σ 0)).value ≤ (s (σ 1)).value
        ∧ (s (σ 1)).value ≤ (s (σ 2)).value
        ∧ σ.symm 0 < σ.symm 2
  := by
  intro s
  have hs : ∀ i, isNaN (s i).value = false := by decide +kernel
  obtain ⟨⟨t, σ, ht, -, hget, hordered, hstable⟩, -⟩ := sorted_stable s hs
  refine ⟨hs, t, σ, ht, hget 2, hget 3, hordered 0 1 (by decide), hordered 1 2 (by decide), ?_⟩
  apply hstable 0 2 (by decide)
  decide

end Numerics.Simplex
