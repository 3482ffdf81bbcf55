import Numerics.Vec

/-!
# Sorting by insertion

`insertionSort` takes the elements of a list one by one, and lets each of them pass the elements at
the end of the sorted part that it comes before. So equal elements keep their order, and the result
is determined also where `before` is no order, as for numbers that compare with nothing. Sorting
permutes the list (`insertionSort_perm`). `Vec.sort` sorts the entries of a vector.
-/

namespace Numerics

universe u

variable {β : Type u}

/-- Let `x` pass the elements that it comes before, in a list that is written from its end. -/
def passBack (before : β → β → Bool) (x : β) : List β → List β
  | [] => [x]
  | y :: ys => if before x y then y :: passBack before x ys else x :: y :: ys

/-- The sorted list `ys` with the elements of `xs` inserted, one by one. -/
def insertAll (before : β → β → Bool) (ys xs : List β) : List β :=
  (xs.foldl (fun sorted x => passBack before x sorted) ys.reverse).reverse

/-- The elements of `xs` in the order of `before`. -/
def insertionSort (before : β → β → Bool) (xs : List β) : List β :=
  insertAll before [] xs

theorem passBack_perm (before : β → β → Bool) (x : β) (ys : List β) :
  (passBack before x ys).Perm (x :: ys)
  := by
  induction ys with
  | nil => rfl
  | cons y ys ih =>
    rw [passBack]
    split
    · apply (ih.cons y).trans
      apply List.Perm.swap
    · rfl

theorem foldl_passBack_perm (before : β → β → Bool) (xs ys : List β) :
  (xs.foldl (fun sorted x => passBack before x sorted) ys).Perm (xs ++ ys)
  := by
  induction xs generalizing ys with
  | nil => rfl
  | cons x xs ih =>
    apply (ih (passBack before x ys)).trans
    apply ((passBack_perm before x ys).append_left xs).trans
    apply List.perm_middle

/-- Insertion keeps all elements. -/
theorem insertAll_perm (before : β → β → Bool) (ys xs : List β) :
  (insertAll before ys xs).Perm (ys ++ xs)
  := by
  apply (List.reverse_perm _).trans
  apply (foldl_passBack_perm before xs ys.reverse).trans
  apply ((List.reverse_perm ys).append_left xs).trans
  apply List.perm_append_comm

/-- Sorting permutes. -/
theorem insertionSort_perm (before : β → β → Bool) (xs : List β) :
  (insertionSort before xs).Perm xs
  := insertAll_perm before [] xs

@[simp]
theorem length_insertionSort (before : β → β → Bool) (xs : List β) :
  (insertionSort before xs).length = xs.length
  := (insertionSort_perm before xs).length_eq

/-- The vector of the entries of `v` in the order of `before`. -/
def Vec.sort {β : Type} {n : Nat} (before : β → β → Bool) (v : Vec β n) : Vec β n :=
  ⟨⟨(insertionSort before v.toList).toArray, by simp⟩⟩

@[simp]
theorem Vec.toList_sort {β : Type} {n : Nat} (before : β → β → Bool) (v : Vec β n) :
  (v.sort before).toList = insertionSort before v.toList
  := rfl

end Numerics
