import Numerics.Sorting.Insertion
import Numerics.Sorting.Merge
import Numerics.Sorting.Network

/-!
# Sorting short lists

`sortShort?` sorts the two halves of a short list, each by a network for its first elements and by
insertion for the others, and merges them. Where `before` is no order, the halves may not merge. A
list that is found is a permutation (`sortShort?_perm`).
-/

namespace Numerics

universe u

variable {β : Type u}

/-- The elements of `xs` in order. The first ones are sorted by `network`, and the others are
inserted. -/
def sortFrom (network : Network) (before : β → β → Bool) (xs : List β) : List β :=
  let ys := (network.run before xs.toArray).toList
  insertAll before (ys.take network.size) (ys.drop network.size)

/-- The elements of a list in order, without a merge. -/
def sortHalf (before : β → β → Bool) (xs : List β) : List β :=
  if 13 ≤ xs.length then
    sortFrom .thirteen before xs
  else if 9 ≤ xs.length then
    sortFrom .nine before xs
  else
    insertionSort before xs

/-- The elements of a short list in order, if its halves merge. -/
def sortShort? (before : β → β → Bool) (xs : List β) : Option (List β) :=
  if xs.length < 18 then
    some (sortHalf before xs)
  else
    let half := xs.length / 2
    mergeEnds? before (sortHalf before (xs.take half)) (sortHalf before (xs.drop half))

theorem sortFrom_perm (network : Network) (before : β → β → Bool) (xs : List β) :
  (sortFrom network before xs).Perm xs
  := by
  apply (insertAll_perm before _ _).trans
  rw [List.take_append_drop]
  apply (network.run_perm before xs.toArray).toList

theorem sortHalf_perm (before : β → β → Bool) (xs : List β) :
  (sortHalf before xs).Perm xs
  := by
  rw [sortHalf]
  split
  · apply sortFrom_perm
  · split
    · apply sortFrom_perm
    · apply insertionSort_perm

theorem sortShort?_perm {before : β → β → Bool} {xs ys : List β}
    (h : sortShort? before xs = some ys) :
  ys.Perm xs
  := by
  rw [sortShort?] at h
  split at h
  · cases h
    apply sortHalf_perm
  · have low := sortHalf_perm before (xs.take (xs.length / 2))
    have high := sortHalf_perm before (xs.drop (xs.length / 2))
    have := (mergeEnds?_perm (by grind [low.length_eq, high.length_eq]) h).trans (low.append high)
    rwa [List.take_append_drop] at this

end Numerics
