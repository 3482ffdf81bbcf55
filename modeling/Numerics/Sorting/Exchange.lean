/-!
# Comparing and exchanging places

Sorting an array compares the elements at two of its places (`beforeAt`), and exchanges them. An
exchange permutes the array (`exchange_perm`).
-/

namespace Numerics

universe u

variable {β : Type u}

/-- Whether the element of `xs` at the place `i` comes before the one at the place `j`. There is
no element beyond the end. -/
def beforeAt (before : β → β → Bool) (xs : Array β) (i j : Nat) : Bool :=
  match xs[i]?, xs[j]? with
  | some x, some y => before x y
  | _, _ => false

theorem exchange_perm (xs : Array β) (i j : Nat) :
  (xs.swapIfInBounds i j).Perm xs
  := by
  rw [Array.swapIfInBounds_def]
  split
  · split
    · apply Array.swap_perm
    · rfl
  · rfl

end Numerics
