import Numerics.Sorting.Exchange

/-!
# Sorting by a heap

In a heap the children of the place `i` are the places `2 * i + 1` and `2 * i + 2`, and no element
comes before one of its children. `heapSort` makes the whole array a heap, and then exchanges the
first element of the heap with the last one over and over, each time for a heap that is one element
shorter. It permutes the list (`heapSort_perm`).
-/

namespace Numerics

universe u

variable {β : Type u}

namespace Heap

/-- The child of the place `i` that the other one comes before, in the heap of the first `n`
places. The first child counts if none comes before the other. -/
def topChild (before : β → β → Bool) (n : Nat) (xs : Array β) (i : Nat) : Nat :=
  if 2 * i + 2 < n ∧ beforeAt before xs (2 * i + 1) (2 * i + 2) then 2 * i + 2 else 2 * i + 1

theorem lt_topChild (before : β → β → Bool) (n : Nat) (xs : Array β) (i : Nat) :
  i < topChild before n xs i
  := by
  rw [topChild]
  split <;> omega

/-- Let the element at the place `i` sink as long as it comes before a child, in the heap of the
first `n` places. -/
def sink (before : β → β → Bool) (n : Nat) (xs : Array β) (i : Nat) : Array β :=
  if 2 * i + 1 < n then
    let j := topChild before n xs i
    if beforeAt before xs i j then sink before n (xs.swapIfInBounds i j) j else xs
  else
    xs
termination_by n - i
decreasing_by
  have := lt_topChild before n xs i
  omega

/-- The elements of `xs` as a heap. -/
def build (before : β → β → Bool) (xs : Array β) : Array β :=
  (List.range (xs.size / 2)).foldr (fun i ys => sink before xs.size ys i) xs

/-- The elements of the heap `xs` in order. -/
def drain (before : β → β → Bool) (xs : Array β) : Array β :=
  (List.range xs.size).foldr (fun i ys => sink before i (ys.swapIfInBounds 0 i) 0) xs

theorem sink_perm (before : β → β → Bool) (n : Nat) (xs : Array β) (i : Nat) :
  (sink before n xs i).Perm xs
  := by
  fun_induction sink before n xs i with
  | case1 xs i _ j _ ih => apply ih.trans (exchange_perm xs i j)
  | case2 => rfl
  | case3 => rfl

theorem foldr_perm {f : Nat → Array β → Array β} (h : ∀ i xs, (f i xs).Perm xs)
    (places : List Nat) (xs : Array β) :
  (places.foldr f xs).Perm xs
  := by
  induction places with
  | nil => rfl
  | cons i places ih => apply (h i _).trans ih

theorem build_perm (before : β → β → Bool) (xs : Array β) :
  (build before xs).Perm xs
  := foldr_perm (fun i ys => sink_perm before xs.size ys i) _ xs

theorem drain_perm (before : β → β → Bool) (xs : Array β) :
  (drain before xs).Perm xs
  := foldr_perm (fun i ys => (sink_perm before i _ 0).trans (exchange_perm ys 0 i)) _ xs

end Heap

/-- The elements of `xs` in the order of `before`, sorted by a heap. -/
def heapSort (before : β → β → Bool) (xs : List β) : List β :=
  (Heap.drain before (Heap.build before xs.toArray)).toList

/-- Sorting permutes. -/
theorem heapSort_perm (before : β → β → Bool) (xs : List β) :
  (heapSort before xs).Perm xs
  := ((Heap.drain_perm before _).trans (Heap.build_perm before xs.toArray)).toList

end Numerics
