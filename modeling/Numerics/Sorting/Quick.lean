import Numerics.Sorting.Heap
import Numerics.Sorting.Short

/-!
# Quicksort

`quickSort?` splits a list at a pivot, and sorts the parts in the same way. Other lists are sorted
in other ways:

* a list of up to twenty elements by insertion;
* a list that is in order, or in the opposite order, as it is;
* a part of up to 32 elements as a short list;
* a part that was split too often by a heap.

Where `before` is an order, the way makes no difference. Where it is none, as for numbers some of
which compare with nothing, the way decides which list is found, and a merge may find none. A list
that is found is a permutation (`quickSort?_perm`).
-/

namespace Numerics

universe u

variable {β : Type u}

namespace Quick

/-! ### Pivots -/

/-- That of the places `i`, `j` and `k` whose element is between the other two. -/
def middlePlace (before : β → β → Bool) (xs : Array β) (i j k : Nat) : Nat :=
  let side := beforeAt before xs i j
  if beforeAt before xs i k = side then
    if beforeAt before xs j k = side then j else k
  else
    i

/-- A place whose element is about in the middle of the `n` elements of `xs` from the place `i` on.
It is the middle one of three places that are found in the same way, in the first, the fifth and the
last eighth of the elements. -/
def pivotPlace (before : β → β → Bool) (xs : Array β) (n i : Nat) : Nat :=
  if n < 8 then
    i
  else
    let m := n / 8
    middlePlace before xs (pivotPlace before xs m i) (pivotPlace before xs m (i + 4 * m))
      (pivotPlace before xs m (i + 7 * m))
termination_by n

/-- The list `xs` with a pivot in the first place. -/
def pivotFirst (before : β → β → Bool) (xs : List β) : List β :=
  let ys := xs.toArray
  (ys.swapIfInBounds 0 (pivotPlace before ys ys.size 0)).toList

theorem pivotFirst_perm (before : β → β → Bool) (xs : List β) :
  (pivotFirst before xs).Perm xs
  := (exchange_perm xs.toArray 0 _).toList

/-! ### Parts -/

/-- Let `x` join the low elements at their end, or the others at their front. The one that was in
front of the others moves to their end. -/
def join (low : β → Bool) : List β × List β → β → List β × List β
  | (ls, hs), x => if low x then (ls ++ [x], hs.rotateLeft) else (ls, x :: hs.rotateLeft)

/-- The low elements of `xs`, and the others. -/
def parts (low : β → Bool) (xs : List β) : List β × List β :=
  xs.rotateLeft.foldl (join low) ([], [])

/-- The elements of `xs` in order, after at most `n` splits. No element of `xs` comes before the
pivot `q?` of an earlier split. If it does not come before the new pivot either, the elements that
the new pivot does not come before are all alike. -/
def sort? (before : β → β → Bool) : Nat → Option β → List β → Option (List β)
  | 0, _, xs => if xs.length ≤ 32 then sortShort? before xs else some (heapSort before xs)
  | n + 1, q?, xs =>
    if xs.length ≤ 32 then
      sortShort? before xs
    else
      match pivotFirst before xs with
      | [] => some []
      | p :: rest =>
        if q?.any fun q => !before q p then do
          let (same, high) := parts (fun x => !before p x) rest
          let high ← sort? before n none high
          return same.rotateRight ++ p :: high
        else do
          let (low, high) := parts (fun x => before x p) rest
          let low ← sort? before n q? low.rotateRight
          let high ← sort? before n (some p) high
          return low ++ p :: high

theorem rotateLeft_perm (xs : List β) :
  xs.rotateLeft.Perm xs
  := by
  rw [List.rotateLeft]
  split
  · rfl
  · apply List.perm_append_comm.trans
    rw [List.take_append_drop]

theorem rotateRight_perm (xs : List β) :
  xs.rotateRight.Perm xs
  := by
  rw [List.rotateRight]
  split
  · rfl
  · apply List.perm_append_comm.trans
    rw [List.take_append_drop]

theorem join_perm (low : β → Bool) (s : List β × List β) (x : β) :
  ((join low s x).1 ++ (join low s x).2).Perm (x :: (s.1 ++ s.2))
  := by
  have h := (rotateLeft_perm s.2).append_left s.1
  rw [join]
  split
  · rw [List.append_assoc, List.singleton_append]
    apply List.perm_middle.trans (h.cons x)
  · apply List.perm_middle.trans (h.cons x)

theorem foldl_join_perm (low : β → Bool) (xs : List β) (s : List β × List β) :
  ((xs.foldl (join low) s).1 ++ (xs.foldl (join low) s).2).Perm (xs ++ (s.1 ++ s.2))
  := by
  induction xs generalizing s with
  | nil => rfl
  | cons x xs ih =>
    apply (ih (join low s x)).trans
    apply ((join_perm low s x).append_left xs).trans
    apply List.perm_middle

/-- Each element is in one part. -/
theorem parts_perm (low : β → Bool) (xs : List β) :
  ((parts low xs).1 ++ (parts low xs).2).Perm xs
  := by
  have h := foldl_join_perm low xs.rotateLeft ([], [])
  rw [List.append_nil, List.append_nil] at h
  apply h.trans (rotateLeft_perm xs)

theorem sort?_perm {before : β → β → Bool} {n : Nat} {q? : Option β} {xs ys : List β}
    (h : sort? before n q? xs = some ys) :
  ys.Perm xs
  := by
  induction n generalizing q? xs ys with
  | zero =>
    rw [sort?] at h
    split at h
    · apply sortShort?_perm h
    · cases h
      apply heapSort_perm
  | succ n ih =>
    rw [sort?] at h
    split at h
    · apply sortShort?_perm h
    · have hp := pivotFirst_perm before xs
      split at h
      · rename_i hf
        rw [hf] at hp
        cases h
        apply hp
      · rename_i p rest hf
        rw [hf] at hp
        split at h
        · have hs := parts_perm (fun x => !before p x) rest
          simp only [Option.bind_eq_bind, Option.bind_eq_some_iff] at h
          obtain ⟨high, hh, hy⟩ := h
          cases hy
          have hr := rotateRight_perm (parts (fun x => !before p x) rest).1
          apply List.perm_middle.trans
          apply ((hr.append (ih hh)).trans hs).cons p |>.trans hp
        · have hs := parts_perm (fun x => before x p) rest
          simp only [Option.bind_eq_bind, Option.bind_eq_some_iff] at h
          obtain ⟨low, hl, high, hh, hy⟩ := h
          cases hy
          have hr := rotateRight_perm (parts (fun x => before x p) rest).1
          apply List.perm_middle.trans
          apply ((((ih hl).trans hr).append (ih hh)).trans hs).cons p |>.trans hp

end Quick

/-- Whether no element of `xs` comes before the one in front of it. -/
def ascends (before : β → β → Bool) (xs : List β) : Bool :=
  (xs.zip xs.tail).all fun (x, y) => !before y x

/-- Whether each element of `xs` comes before the one in front of it. -/
def descends (before : β → β → Bool) (xs : List β) : Bool :=
  (xs.zip xs.tail).all fun (x, y) => before y x

/-- The elements of `xs` in the order of `before`, sorted by splits; none if a merge finds that
`before` is no order. -/
def quickSort? (before : β → β → Bool) (xs : List β) : Option (List β) :=
  if xs.length ≤ 20 then
    some (insertionSort before xs)
  else if ascends before xs then
    some xs
  else if descends before xs then
    some xs.reverse
  else
    Quick.sort? before (2 * xs.length.log2) none xs

/-- Sorting permutes. -/
theorem quickSort?_perm {before : β → β → Bool} {xs ys : List β}
    (h : quickSort? before xs = some ys) :
  ys.Perm xs
  := by
  rw [quickSort?] at h
  split at h
  · cases h
    apply insertionSort_perm
  · split at h
    · cases h
      rfl
    · split at h
      · cases h
        apply List.reverse_perm
      · apply Quick.sort?_perm h

end Numerics
