import Mathlib.Data.List.FinRange
import Mathlib.Data.List.NodupEquivFin
import Mathlib.Data.List.OfFn
import Mathlib.Data.List.Pairwise
import Mathlib.Logic.Equiv.Fin.Basic
import Numerics.Sorting.Insertion

/-!
# The order after a sort

Floats that are no numbers come before nothing and after nothing, so comparing them is not an order.
`Orders before P` says that `before` is one among the elements with the property `P`: what comes
before does not come after, and what does not come before is transitive. If all elements of a list
have the property, then `insertionSort` brings them in order.

Whether it is an order or not, an element passes only those that it comes before, so all others keep
their places relative to it (`insertionSort_stable`). And a sort looks at its elements through
`before` only. So sorting a vector is sorting its indices, and rearranges it by a permutation of
these, which `Vec.exists_stable_perm_sort` gives.
-/

namespace Numerics

variable {β : Type} {before : β → β → Bool} {P : β → Prop}

/-- The elements that satisfy `P` are in an order, up to equal ones, that `before` decides. -/
structure Orders (before : β → β → Bool) (P : β → Prop) : Prop where
  asymm : ∀ x y, P x → P y → before x y = true → before y x = false
  trans : ∀ x y z, P x → P y → P z → before y x = false → before z y = false → before z x = false

theorem passBack_pairwise (h : Orders before P) {x : β} {ys : List β} (hx : P x)
    (hys : ∀ y ∈ ys, P y) (hsorted : ys.Pairwise fun a b => before a b = false) :
  (passBack before x ys).Pairwise fun a b => before a b = false
  := by
  induction ys with
  | nil => exact List.pairwise_singleton _ x
  | cons y ys ih =>
    rw [List.forall_mem_cons] at hys
    rw [List.pairwise_cons] at hsorted
    rw [passBack]
    split
    case isTrue hxy =>
      rw [List.pairwise_cons]
      refine ⟨?_, ih hys.2 hsorted.2⟩
      intro b hb
      rw [(passBack_perm before x ys).mem_iff, List.mem_cons] at hb
      obtain rfl | hb := hb
      · exact h.asymm b y hx hys.1 hxy
      · exact hsorted.1 b hb
    case isFalse hxy =>
      rw [Bool.not_eq_true] at hxy
      rw [List.pairwise_cons, List.pairwise_cons, List.forall_mem_cons]
      refine ⟨⟨hxy, ?_⟩, hsorted⟩
      intro b hb
      exact h.trans b y x (hys.2 b hb) hys.1 hx (hsorted.1 b hb) hxy

theorem foldl_passBack_pairwise (h : Orders before P) {xs ys : List β} (hxs : ∀ x ∈ xs, P x)
    (hys : ∀ y ∈ ys, P y) (hsorted : ys.Pairwise fun a b => before a b = false) :
  (xs.foldl (fun sorted x => passBack before x sorted) ys).Pairwise fun a b => before a b = false
  := by
  induction xs generalizing ys with
  | nil => exact hsorted
  | cons x xs ih =>
    rw [List.forall_mem_cons] at hxs
    apply ih hxs.2
    · intro y hy
      rw [(passBack_perm before x ys).mem_iff, List.mem_cons] at hy
      obtain rfl | hy := hy
      · exact hxs.1
      · exact hys y hy
    · exact passBack_pairwise h hxs.1 hys hsorted

/-- Nothing comes before an element that precedes it. -/
theorem insertionSort_pairwise (h : Orders before P) {xs : List β} (hxs : ∀ x ∈ xs, P x) :
  (insertionSort before xs).Pairwise fun a b => before b a = false
  := by
  rw [insertionSort, insertAll, List.pairwise_reverse]
  apply foldl_passBack_pairwise h hxs
  · simp
  · exact List.Pairwise.nil

/-! ### Elements that keep their places -/

section

variable {R : β → β → Prop}

theorem passBack_stable {x : β} {ys : List β} (hx : ∀ y ∈ ys, R y x)
    (hys : ys.Pairwise fun a b => R b a ∨ before b a = true) :
  (passBack before x ys).Pairwise fun a b => R b a ∨ before b a = true
  := by
  induction ys with
  | nil => exact List.pairwise_singleton _ x
  | cons y ys ih =>
    rw [List.forall_mem_cons] at hx
    have hpast := List.pairwise_cons.mp hys
    rw [passBack]
    split
    case isTrue hxy =>
      rw [List.pairwise_cons]
      refine ⟨?_, ih hx.2 hpast.2⟩
      intro b hb
      rw [(passBack_perm before x ys).mem_iff, List.mem_cons] at hb
      obtain rfl | hb := hb
      · exact .inr hxy
      · exact hpast.1 b hb
    case isFalse =>
      rw [List.pairwise_cons, List.forall_mem_cons]
      exact ⟨⟨.inl hx.1, fun b hb => .inl (hx.2 b hb)⟩, hys⟩

theorem foldl_passBack_stable {xs ys : List β} (hxs : xs.Pairwise R)
    (hcross : ∀ x ∈ xs, ∀ y ∈ ys, R y x)
    (hys : ys.Pairwise fun a b => R b a ∨ before b a = true) :
  (xs.foldl (fun sorted x => passBack before x sorted) ys).Pairwise
    fun a b => R b a ∨ before b a = true
  := by
  induction xs generalizing ys with
  | nil => exact hys
  | cons x xs ih =>
    rw [List.pairwise_cons] at hxs
    rw [List.forall_mem_cons] at hcross
    apply ih hxs.2
    · intro z hz y hy
      rw [(passBack_perm before x ys).mem_iff, List.mem_cons] at hy
      obtain rfl | hy := hy
      · exact hxs.1 z hz
      · exact hcross.2 z hz y hy
    · exact passBack_stable hcross.1 hys

/-- An element that precedes another one did so before the sort, or comes before it. -/
theorem insertionSort_stable {xs : List β} (h : xs.Pairwise R) :
  (insertionSort before xs).Pairwise fun a b => R a b ∨ before a b = true
  := by
  rw [insertionSort, insertAll, List.pairwise_reverse]
  apply foldl_passBack_stable h
  · simp
  · exact List.Pairwise.nil

end

/-! ### Elements that stand for others -/

section

variable {γ : Type} (before : β → β → Bool) (f : γ → β)

theorem passBack_map (x : γ) (ys : List γ) :
  passBack before (f x) (ys.map f) = (passBack (fun a b => before (f a) (f b)) x ys).map f
  := by
  induction ys with
  | nil => rfl
  | cons y ys ih =>
    rw [List.map_cons, passBack, passBack, ih]
    split <;> rfl

theorem foldl_passBack_map (xs ys : List γ) :
  (xs.map f).foldl (fun sorted x => passBack before x sorted) (ys.map f)
    = (xs.foldl (fun sorted x => passBack (fun a b => before (f a) (f b)) x sorted) ys).map f
  := by
  induction xs generalizing ys with
  | nil => rfl
  | cons x xs ih => rw [List.map_cons, List.foldl_cons, List.foldl_cons, passBack_map, ih]

/-- Sorting the images is sorting what they are images of. -/
theorem insertionSort_map (xs : List γ) :
  insertionSort before (xs.map f) = (insertionSort (fun a b => before (f a) (f b)) xs).map f
  := by
  rw [insertionSort, insertAll, insertionSort, insertAll, List.map_reverse, ← foldl_passBack_map]
  rfl

end

/-! ### Vectors -/

namespace Vec

variable {n : Nat} (v : Vec β n)

theorem toList_eq_ofFn :
  v.toList = List.ofFn v
  := by
  apply List.ext_getElem
  · simp
  · intro i _ _
    simp [toList, get]

theorem exists_eq_sort (i : Fin n) :
  ∃ j, (v.sort before) i = v j
  := by
  have hi : (v.sort before) i ∈ (v.sort before).toList := by
    rw [toList_eq_ofFn, List.mem_ofFn]
    use i
  rw [toList_sort, (insertionSort_perm before _).mem_iff, toList_eq_ofFn, List.mem_ofFn] at hi
  obtain ⟨j, hj⟩ := hi
  use j, hj.symm

theorem exists_sort_eq (j : Fin n) :
  ∃ i, (v.sort before) i = v j
  := by
  have hj : v j ∈ v.toList := by
    rw [toList_eq_ofFn, List.mem_ofFn]
    use j
  rw [← (insertionSort_perm before _).mem_iff, ← toList_sort, toList_eq_ofFn, List.mem_ofFn] at hj
  exact hj

/-- The indices of the entries of `v`, in the order of these. -/
def sortedIndices (before : β → β → Bool) : List (Fin n) :=
  insertionSort (fun i j => before (v i) (v j)) (List.finRange n)

theorem sortedIndices_perm (before : β → β → Bool) :
  (v.sortedIndices before).Perm (List.finRange n)
  := insertionSort_perm _ _

theorem toList_sort_eq_map (before : β → β → Bool) :
  (v.sort before).toList = (v.sortedIndices before).map v
  := by
  rw [toList_sort, toList_eq_ofFn, List.ofFn_eq_map, insertionSort_map]
  rfl

theorem sortedIndices_stable (before : β → β → Bool) :
  (v.sortedIndices before).Pairwise fun i j => i < j ∨ before (v i) (v j) = true
  := insertionSort_stable (List.pairwise_lt_finRange n)

/-- The vector in order is the vector with its indices permuted. Indices that change places are
those of an entry and of one that it comes before. -/
theorem exists_stable_perm_sort (before : β → β → Bool) :
  ∃ σ : Equiv.Perm (Fin n), (∀ i, (v.sort before) i = v (σ i))
    ∧ ∀ i j, i < j → σ i < σ j ∨ before (v (σ i)) (v (σ j)) = true
  := by
  have hperm := v.sortedIndices_perm before
  have hlength : (v.sortedIndices before).length = n := by
    rw [hperm.length_eq, List.length_finRange]
  have hnodup : (v.sortedIndices before).Nodup := hperm.nodup_iff.mpr (List.nodup_finRange n)
  have hmem : ∀ i, i ∈ v.sortedIndices before :=
    fun i => hperm.mem_iff.mpr (List.mem_finRange i)
  use (finCongr hlength.symm).trans (hnodup.getEquivOfForallMemList _ hmem)
  constructor
  · intro i
    have hentry := congrArg (fun entries => entries[i.val]?) (v.toList_sort_eq_map before)
    simpa [toList_eq_ofFn, hlength] using hentry
  · intro i j hij
    apply List.pairwise_iff_getElem.mp (v.sortedIndices_stable before)
    exact hij

theorem exists_perm_sort (before : β → β → Bool) :
  ∃ σ : Equiv.Perm (Fin n), ∀ i, (v.sort before) i = v (σ i)
  := by
  obtain ⟨σ, hσ, -⟩ := v.exists_stable_perm_sort before
  exact ⟨σ, hσ⟩

theorem sort_ordered (h : Orders before P) (hv : ∀ i, P (v i)) {i j : Fin n} (hij : i < j) :
  before ((v.sort before) j) ((v.sort before) i) = false
  := by
  have hlist : ∀ x ∈ v.toList, P x := by
    rw [toList_eq_ofFn, List.forall_mem_ofFn_iff]
    exact hv
  have hsorted := insertionSort_pairwise h hlist
  rw [← toList_sort, toList_eq_ofFn, List.pairwise_ofFn] at hsorted
  exact hsorted hij

end Vec

end Numerics
