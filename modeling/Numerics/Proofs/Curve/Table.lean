import Mathlib.Algebra.Order.Field.Basic
import Numerics.Curve.Newton
import Numerics.Proofs.Scalar.Exact
import Numerics.Proofs.Steps

/-!
# The table of divided differences

Whatever the arithmetic, the rows of an interpolation are a table: the row of the node `i` has
`i + 1` entries, and each of them but the first follows from the one before it and from one in the
row above, `Divided`. The recursion that computes a row pairs the row above with the abscissae in
reverse; since that row is as long as the list of the abscissae, no entry is lost.

A node is added behind the others, which stay as they are, so adding keeps the table. An abscissa
that is there already is refused, and then nothing changes at all. So what samples that are given at
once make of an empty interpolation, and what those make of it that come later, is the same.
-/

namespace Numerics.Newton

open Curve

variable {α : Type}

/-! ### Points -/

/-- The abscissae of the nodes, in order. -/
def abscissae (p : Newton α) : List α :=
  p.nodes.map Node.x

/-- The abscissae and the ordinates of the nodes, in order. -/
def points (p : Newton α) : List (α × α) :=
  p.nodes.map fun n => (n.x, n.y)

theorem abscissae_eq (p : Newton α) :
  p.abscissae = p.points.map Prod.fst
  := by
  rw [points, List.map_map]
  rfl

/-- No two scalars in a list are equal. -/
def Distinct [BEq α] (xs : List α) : Prop :=
  xs.Pairwise fun x x' => (x == x') = false

instance [BEq α] (xs : List α) : Decidable (Distinct xs) :=
  inferInstanceAs (Decidable (xs.Pairwise fun x x' => (x == x') = false))

variable [Scalar α] {p p' : Newton α} {x y : α}

/-! ### Rows -/

/-- The divided difference of the order `k + 1` that ends at the node `n` follows from those of the
order `k` that end at `n` and at the node `before`, over a range that starts at the node `first`,
whose abscissa is another one. -/
structure Divided (n before first : Node α) (k : Nat) : Prop where
  distinct : (first.x == n.x) = false
  quotient : ∃ a b, n.row[k]? = some a ∧ before.row[k]? = some b
    ∧ n.row[k + 1]? = some ((a - b) / (n.x - first.x))

/-- The rows of the nodes of `p` are a table of divided differences over different abscissae. -/
structure Table (p : Newton α) : Prop where
  distinct : Distinct p.abscissae
  length_row : ∀ i n, p.nodes[i]? = some n → n.row.length = i + 1
  divided : ∀ j k first before n, p.nodes[j]? = some first → p.nodes[j + k]? = some before →
    p.nodes[j + k + 1]? = some n → Divided n before first k

theorem table_empty :
  (empty : Newton α).Table
  := by
  constructor
  · exact List.Pairwise.nil
  · intro i n hn
    cases hn
  · intro j k first before n hfirst
    cases hfirst

theorem length_differencesAt (x lower : α) (pairs : List (α × α)) :
  (differencesAt x lower pairs).length = pairs.length
  := by
  induction pairs generalizing lower with
  | nil => rfl
  | cons pair pairs ih => rw [differencesAt, List.length_cons, List.length_cons, ih]

/-- Each of the differences at `x` follows from the one before it and from its pair. -/
theorem getElem?_differencesAt {pairs : List (α × α)} {k : Nat} {before first : α}
    (h : pairs[k]? = some (before, first)) (x lower : α) :
  ∃ a, (lower :: differencesAt x lower pairs)[k]? = some a
    ∧ (differencesAt x lower pairs)[k]? = some ((a - before) / (x - first))
  := by
  induction pairs generalizing k lower with
  | nil => cases h
  | cons pair pairs ih =>
    cases k with
    | zero =>
      cases h
      use lower, rfl
      rfl
    | succ k => exact ih h _

/-- The node that is added to `p` for the sample at `x`. -/
def newNode (p : Newton α) (x y : α) : Node α :=
  ⟨x, y, newDifferences x y p.nodes.reverse⟩

/-- A new row runs along the row above it and along the abscissae, the last one first. -/
theorem newDifferences_reverse {nodes : List (Node α)} {last : Node α}
    (h : nodes.getLast? = some last) (x y : α) :
  newDifferences x y nodes.reverse
    = differencesAt x y (last.row.zip (nodes.map Node.x).reverse)
  := by
  obtain ⟨others, rfl⟩ := List.getLast?_eq_some_iff.mp h
  simp only [List.reverse_append, List.reverse_singleton, List.singleton_append, newDifferences,
    List.map_append, List.map_singleton, List.map_reverse]

/-- The row of a new node has one entry for each node and one more. -/
theorem Table.length_newNode (h : p.Table) (x y : α) :
  (p.newNode x y).row.length = p.nodes.length + 1
  := by
  rw [newNode, Node.row, List.length_cons]
  cases hlast : p.nodes.getLast? with
  | none =>
    rw [List.getLast?_eq_none_iff.mp hlast]
    rfl
  | some last =>
    have hlength := h.length_row _ last (List.getLast?_eq_getElem?.symm.trans hlast)
    have hpos : 0 < p.nodes.length := List.length_pos_of_mem (List.mem_of_getLast? hlast)
    rw [newDifferences_reverse hlast, length_differencesAt, List.length_zip, List.length_reverse,
      List.length_map, hlength, Nat.sub_add_cancel hpos, Nat.min_self]

/-- The differences of a new node follow from those of the last node. -/
theorem Table.divided_newNode (h : p.Table) (hx : ∀ n ∈ p.nodes, (n.x == x) = false) (y : α)
    {j k : Nat} {first before : Node α} (hfirst : p.nodes[j]? = some first)
    (hbefore : p.nodes[j + k]? = some before) (hjk : j + k + 1 = p.nodes.length) :
  Divided (p.newNode x y) before first k
  := by
  have hlast : p.nodes.getLast? = some before := by
    rw [List.getLast?_eq_getElem?, ← hjk, Nat.add_sub_cancel, hbefore]
  have hk : k < before.row.length := by
    rw [h.length_row _ _ hbefore]
    omega
  have habscissa : (p.nodes.map Node.x).reverse[k]? = some first.x := by
    have hj : p.nodes.length - 1 - k = j := by omega
    rw [List.getElem?_reverse (by rw [List.length_map]; omega), List.length_map, hj,
      List.getElem?_map, hfirst, Option.map_some]
  obtain ⟨a, ha, hquotient⟩ := getElem?_differencesAt
    (List.getElem?_zip_eq_some.mpr ⟨List.getElem?_eq_getElem hk, habscissa⟩) x y
  rw [← newDifferences_reverse hlast] at ha hquotient
  constructor
  · apply hx first (List.mem_of_getElem? hfirst)
  · use a, before.row[k], ha, List.getElem?_eq_getElem hk
    rw [Node.row, List.getElem?_cons_succ]
    exact hquotient

/-! ### Adding -/

theorem add_eq_ok_iff :
  p.add x y = .ok p' ↔ (∀ n ∈ p.nodes, (n.x == x) = false) ∧ p' = ⟨p.nodes ++ [p.newNode x y]⟩
  := by
  rw [add]
  split
  case isTrue hany =>
    obtain ⟨n, hn, hnx⟩ := List.any_eq_true.mp hany
    constructor
    · intro h
      cases h
    · rintro ⟨hx, -⟩
      rw [hx n hn] at hnx
      cases hnx
  case isFalse hany =>
    have hx : ∀ n ∈ p.nodes, (n.x == x) = false := by
      simpa using hany
    constructor
    · intro h
      cases h
      use hx
      rfl
    · rintro ⟨-, rfl⟩
      rfl

theorem add_eq_error_iff {e : Failure} :
  p.add x y = .error e ↔ e = .duplicateNode ∧ ∃ n ∈ p.nodes, (n.x == x) = true
  := by
  rw [add]
  split
  case isTrue hany =>
    have hx := List.any_eq_true.mp hany
    constructor
    · intro h
      cases h
      exact ⟨rfl, hx⟩
    · rintro ⟨rfl, -⟩
      rfl
  case isFalse hany =>
    constructor
    · intro h
      cases h
    · rintro ⟨-, hx⟩
      exact absurd (List.any_eq_true.mpr hx) hany

theorem getElem?_concat_eq_some {β : Type} {l : List β} {b c : β} {i : Nat}
    (h : (l ++ [b])[i]? = some c) :
  l[i]? = some c ∨ i = l.length ∧ c = b
  := by
  rcases Nat.lt_trichotomy i l.length with hi | hi | hi
  · left
    rw [← h, List.getElem?_append_left hi]
  · right
    rw [hi, List.getElem?_concat_length] at h
    use hi, (Option.some.inj h).symm
  · rw [List.getElem?_eq_none (by rw [List.length_append]; exact hi)] at h
    cases h

/-- Adding a node keeps the table. -/
theorem Table.add (h : p.Table) (hp : p.add x y = .ok p') :
  p'.Table
  := by
  obtain ⟨hx, rfl⟩ := add_eq_ok_iff.mp hp
  constructor
  · rw [abscissae, List.map_append, Distinct, List.pairwise_append]
    use h.distinct, List.pairwise_singleton _ _
    intro x₁ h₁ x₂ h₂
    obtain ⟨n, hn, rfl⟩ := List.mem_map.mp h₁
    rw [List.mem_singleton.mp h₂]
    apply hx n hn
  · intro i n hn
    rcases getElem?_concat_eq_some hn with hn | ⟨rfl, rfl⟩
    · apply h.length_row i n hn
    · apply h.length_newNode
  · intro j k first before n hfirst hbefore hn
    have hlt := (List.getElem?_eq_some_iff.mp hn).1
    rw [List.length_append, List.length_singleton, Nat.add_lt_add_iff_right] at hlt
    rw [List.getElem?_append_left hlt] at hbefore
    rw [List.getElem?_append_left (Nat.lt_of_le_of_lt (Nat.le_add_right j k) hlt)] at hfirst
    rcases getElem?_concat_eq_some hn with hn | ⟨hlast, rfl⟩
    · apply h.divided j k first before n hfirst hbefore hn
    · apply h.divided_newNode hx y hfirst hbefore hlast

/-- Adding a node keeps the points and puts the new one behind them. -/
theorem points_add (hp : p.add x y = .ok p') :
  p'.points = p.points ++ [(x, y)]
  := by
  obtain ⟨-, rfl⟩ := add_eq_ok_iff.mp hp
  rw [points, List.map_append]
  rfl

/-! ### Runs -/

/-- The interpolation `p` after an attempt to add each of the samples, where an attempt that fails
leaves it as it was. -/
def attemptAll (p : Newton α) (samples : List (α × α)) : Newton α :=
  performAll (fun p s => p.add s.1 s.2) p samples

/-- Those of the samples that `p` accepts when they are added one after the other. -/
def accepted (p : Newton α) (samples : List (α × α)) : List (α × α) :=
  performed (fun p s => p.add s.1 s.2) p samples

theorem Table.attemptAll (h : p.Table) (samples : List (α × α)) :
  (p.attemptAll samples).Table
  := by
  apply performAll_induction (P := Table) (A := fun _ => True) _ samples p h
  · intro s _
    trivial
  · intro q s q' hq _ hadd
    apply hq.add hadd

theorem points_attemptAll (p : Newton α) (samples : List (α × α)) :
  (p.attemptAll samples).points = p.points ++ p.accepted samples
  := by
  induction samples generalizing p with
  | nil => exact (List.append_nil _).symm
  | cons s samples ih =>
    rw [Newton.attemptAll, accepted]
    cases hadd : p.add s.1 s.2 with
    | ok p' =>
      rw [performAll_cons_of_ok hadd, performed_cons_of_ok hadd, ← Newton.attemptAll, ih,
        points_add hadd, List.append_assoc]
      rfl
    | error e =>
      rw [performAll_cons_of_error hadd, performed_cons_of_error hadd]
      apply ih

/-- The interpolation of samples is the empty one after each of them was added. -/
theorem ofSamples_eq {xs ys : List α} (hlength : xs.length = ys.length) (hxs : xs ≠ []) :
  ofSamples xs ys = (xs.zip ys).foldlM (fun p s => p.add s.1 s.2) empty
  := by
  rw [ofSamples, samples_eq hlength hxs]
  rfl

/-- Samples at new abscissae that differ are all added. -/
theorem exists_foldlM_add (p : Newton α) (samples : List (α × α))
    (h : Distinct (p.abscissae ++ samples.map Prod.fst)) :
  ∃ p', samples.foldlM (fun p s => p.add s.1 s.2) p = .ok p'
  := by
  induction samples generalizing p with
  | nil => exact ⟨p, rfl⟩
  | cons s samples ih =>
    rw [List.map_cons, List.append_cons] at h
    have hs : ∀ n ∈ p.nodes, (n.x == s.1) = false := by
      intro n hn
      apply (List.pairwise_append.mp (List.pairwise_append.mp h).1).2.2
      · apply List.mem_map_of_mem hn
      · apply List.mem_singleton_self
    obtain ⟨q, hq⟩ : ∃ q, p.add s.1 s.2 = .ok q := ⟨_, add_eq_ok_iff.mpr ⟨hs, rfl⟩⟩
    rw [abscissae_eq, ← List.map_singleton (f := Prod.fst) (a := s), ← List.map_append,
      ← points_add hq, ← abscissae_eq] at h
    obtain ⟨p', hp'⟩ := ih q h
    use p'
    rw [List.foldlM_cons, hq]
    exact hp'

/-- Samples are refused in one way only. -/
theorem foldlM_add_eq_error {samples : List (α × α)} {e : Failure}
    (h : samples.foldlM (fun p s => p.add s.1 s.2) p = .error e) :
  e = .duplicateNode
  := by
  induction samples generalizing p with
  | nil => cases h
  | cons s samples ih =>
    rw [List.foldlM_cons, bind_eq_error] at h
    obtain h | ⟨q, -, h⟩ := h
    · apply (add_eq_error_iff.mp h).1
    · apply ih h

theorem ofSamples_eq_error {xs ys : List α} (hlength : xs.length = ys.length) (hxs : xs ≠ [])
    {e : Failure} (h : ofSamples xs ys = .error e) :
  e = .duplicateNode
  := by
  rw [ofSamples_eq hlength hxs] at h
  apply foldlM_add_eq_error h

/-- An interpolation of samples is what attempts to add them make of the empty one, all of which
succeed. -/
theorem ofSamples_eq_ok {xs ys : List α} (h : ofSamples xs ys = .ok p) :
  xs.length = ys.length ∧ xs ≠ [] ∧ empty.accepted (xs.zip ys) = xs.zip ys
    ∧ empty.attemptAll (xs.zip ys) = p
  := by
  obtain ⟨pairs, hpairs, hfold⟩ := bind_eq_ok.mp h
  obtain ⟨hlength, rfl⟩ := samples_eq_ok hpairs
  use hlength, ne_nil_of_samples hpairs
  apply performed_of_foldlM hfold

/-- Samples are refused exactly if two of the abscissae are equal. -/
theorem ofSamples_eq_error_iff {xs ys : List α} (hlength : xs.length = ys.length) (hxs : xs ≠ []) :
  ofSamples xs ys = .error .duplicateNode ↔ ¬ Distinct xs
  := by
  have hfst : (xs.zip ys).map Prod.fst = xs := List.map_fst_zip hlength.le
  constructor
  · intro h hdistinct
    rw [← hfst] at hdistinct
    obtain ⟨p, hp⟩ := exists_foldlM_add empty (xs.zip ys) hdistinct
    rw [ofSamples_eq hlength hxs, hp] at h
    cases h
  · intro hdistinct
    cases h : ofSamples xs ys with
    | ok p =>
      obtain ⟨-, -, haccepted, rfl⟩ := ofSamples_eq_ok h
      have hpoints := points_attemptAll empty (xs.zip ys)
      have htable := (table_empty.attemptAll (xs.zip ys)).distinct
      rw [abscissae_eq, hpoints, haccepted, List.map_append, hfst] at htable
      exact absurd htable hdistinct
    | error e => rw [ofSamples_eq_error hlength hxs h]

/-- What samples make that are given at once, and what they make when the later ones are added. -/
theorem ofSamples_append {xs ys xs' ys' : List α} (hlength : xs.length = ys.length) (hxs : xs ≠ [])
    (hlength' : xs'.length = ys'.length) :
  ofSamples (xs ++ xs') (ys ++ ys')
    = ofSamples xs ys >>= fun p => (xs'.zip ys').foldlM (fun p s => p.add s.1 s.2) p
  := by
  rw [ofSamples_eq hlength hxs, ofSamples_eq _ (List.append_ne_nil_of_left_ne_nil hxs xs'),
    List.zip_append hlength, List.foldlM_append]
  rw [List.length_append, List.length_append, hlength, hlength']

/-- An interpolation is that of its first samples, to which the others are added, none of which is
refused. -/
theorem ofSamples_take {xs ys : List α} (h : ofSamples xs ys = .ok p) {i : Nat} (hi : 0 < i) :
  ∃ q, ofSamples (xs.take i) (ys.take i) = .ok q
    ∧ q.accepted ((xs.zip ys).drop i) = (xs.zip ys).drop i
    ∧ q.attemptAll ((xs.zip ys).drop i) = p
  := by
  obtain ⟨hlength, hxs, -⟩ := ofSamples_eq_ok h
  have htake : (xs.take i).length = (ys.take i).length := by
    rw [List.length_take, List.length_take, hlength]
  have hdrop : (xs.drop i).length = (ys.drop i).length := by
    rw [List.length_drop, List.length_drop, hlength]
  have hne : xs.take i ≠ [] := by
    rw [Ne, List.take_eq_nil_iff, not_or]
    use hi.ne', hxs
  rw [← List.take_append_drop i xs, ← List.take_append_drop i ys, ofSamples_append htake hne hdrop,
    bind_eq_ok] at h
  obtain ⟨q, hq, hfold⟩ := h
  use q, hq
  rw [List.zip, List.drop_zipWith]
  apply performed_of_foldlM hfold

/-- Whatever the arithmetic, if every scalar equals itself: samples make an interpolation unless two
of their abscissae are equal, which is the only thing that is reported, and some of them with the
others added later make the same one. After attempts to add any samples the rows are a table over
different abscissae, the points are the first samples and those that were accepted, in order, and
the interpolation is the one that these make at once. From there a sample that is accepted adds a
node and leaves the others as they are, and one at an abscissa that equals one of them is refused
and leaves everything as it is. -/
theorem table_along_runs (hrefl : ∀ x : α, (x == x) = true) (xs ys : List α)
    (hlength : xs.length = ys.length) (hxs : xs ≠ []) :
  (ofSamples xs ys = .error .duplicateNode ↔ ¬ Distinct xs)
    ∧ (∀ e, ofSamples xs ys = .error e → e = .duplicateNode)
    ∧ ∀ p, ofSamples xs ys = .ok p →
        (∀ i, 0 < i → ∃ q, ofSamples (xs.take i) (ys.take i) = .ok q
            ∧ q.accepted ((xs.zip ys).drop i) = (xs.zip ys).drop i
            ∧ q.attemptAll ((xs.zip ys).drop i) = p)
        ∧ ∀ more,
            (p.attemptAll more).Table
              ∧ (p.attemptAll more).abscissae.Nodup
              ∧ (p.attemptAll more).points = xs.zip ys ++ p.accepted more
              ∧ ofSamples (xs ++ (p.accepted more).map Prod.fst)
                  (ys ++ (p.accepted more).map Prod.snd) = .ok (p.attemptAll more)
              ∧ (∀ x y p', (p.attemptAll more).add x y = .ok p' →
                  ∃ n, p'.nodes = (p.attemptAll more).nodes ++ [n])
              ∧ ∀ x y, ∀ x' ∈ (p.attemptAll more).abscissae, (x' == x) = true →
                  (p.attemptAll more).add x y = .error .duplicateNode
                    ∧ p.attemptAll (more ++ [(x, y)]) = p.attemptAll more
  := by
  use ofSamples_eq_error_iff hlength hxs, fun _ he => ofSamples_eq_error hlength hxs he
  intro p hp
  use fun i hi => ofSamples_take hp hi
  intro more
  obtain ⟨-, -, haccepted, rfl⟩ := ofSamples_eq_ok hp
  have htable := (table_empty.attemptAll (xs.zip ys)).attemptAll more
  refine ⟨htable, ?_, ?_, ?_, ?_, ?_⟩
  · apply htable.distinct.imp
    rintro x x' hx rfl
    rw [hrefl x] at hx
    cases hx
  · rw [points_attemptAll, points_attemptAll, haccepted]
    rfl
  · rw [ofSamples_append hlength hxs (by rw [List.length_map, List.length_map]), hp, List.zip_map',
      List.map_id']
    apply foldlM_performed
  · intro x y p' hadd
    obtain ⟨-, rfl⟩ := add_eq_ok_iff.mp hadd
    exact ⟨_, rfl⟩
  · intro x y x' hx' hequal
    obtain ⟨n, hn, rfl⟩ := List.mem_map.mp hx'
    have hadd := add_eq_error_iff (y := y).mpr ⟨rfl, n, hn, hequal⟩
    use hadd
    rw [attemptAll, attemptAll, performAll_append]
    apply performAll_cons_of_error hadd

/-- The squares of two numbers, to which another one is added after an attempt at an abscissa that
is there, and two samples at one abscissa. -/
theorem table_along_runs_squares :
  (∀ x : ℚ, (x == x) = true)
    ∧ (∃ p : Newton ℚ, ofSamples [1, 2] [1, 4] = .ok p
      ∧ (p.attemptAll [(1, 7), (3, 9)]).Table
      ∧ (p.attemptAll [(1, 7), (3, 9)]).points = [(1, 1), (2, 4), (3, 9)]
      ∧ ofSamples [1, 2, 3] [1, 4, 9] = .ok (p.attemptAll [(1, 7), (3, 9)]))
    ∧ ofSamples [1, 2, 1] ([1, 4, 7] : List ℚ) = .error .duplicateNode
  := by
  have hrefl : ∀ x : ℚ, (x == x) = true := fun x => decide_eq_true rfl
  use hrefl
  constructor
  · obtain ⟨p, hp, haccepted⟩ : ∃ p : Newton ℚ, ofSamples [1, 2] [1, 4] = .ok p
        ∧ p.accepted [(1, 7), (3, 9)] = [(3, 9)] := by
      apply exists_of_any
      decide +kernel
    obtain ⟨-, -, hruns⟩ := table_along_runs hrefl [1, 2] [1, 4] rfl (List.cons_ne_nil _ _)
    obtain ⟨-, hmore⟩ := hruns p hp
    obtain ⟨htable, -, hpoints, hsame, -⟩ := hmore [(1, 7), (3, 9)]
    rw [haccepted] at hpoints hsame
    exact ⟨p, hp, htable, hpoints, hsame⟩
  · obtain ⟨hequal, -⟩ := table_along_runs hrefl [1, 2, 1] [1, 4, 7] rfl (List.cons_ne_nil _ _)
    apply hequal.mpr
    decide +kernel

end Numerics.Newton
