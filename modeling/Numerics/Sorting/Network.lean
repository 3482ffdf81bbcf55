import Numerics.Sorting.Exchange

/-!
# Sorting networks

A sorting network sorts a fixed number of elements by comparisons that do not depend on each other:
the elements at the first pair of places are exchanged if they are in the wrong order, then those at
the second pair, and so on. `Network.nine` and `Network.thirteen` are networks with few pairs.
Running a network permutes the elements (`Network.run_perm`).
-/

namespace Numerics

universe u

variable {β : Type u}

/-- A sorting network. -/
structure Network where
  /-- The number of elements that it sorts. -/
  size : Nat
  /-- The pairs of places, the lower one first. -/
  pairs : List (Nat × Nat)

namespace Network

/-- Exchange the elements at the places `p` if the second one comes before the first. -/
def order (before : β → β → Bool) (xs : Array β) (p : Nat × Nat) : Array β :=
  if beforeAt before xs p.2 p.1 then xs.swapIfInBounds p.1 p.2 else xs

/-- Sort the first elements of `xs`, as many as `network` sorts. -/
def run (network : Network) (before : β → β → Bool) (xs : Array β) : Array β :=
  network.pairs.foldl (order before) xs

/-- A network of 25 pairs for nine elements. -/
def nine : Network where
  size := 9
  pairs := [
    (0, 3), (1, 7), (2, 5), (4, 8),
    (0, 7), (2, 4), (3, 8), (5, 6),
    (0, 2), (1, 3), (4, 5), (7, 8),
    (1, 4), (3, 6), (5, 7),
    (0, 1), (2, 4), (3, 5), (6, 8),
    (2, 3), (4, 5), (6, 7),
    (1, 2), (3, 4), (5, 6)]

/-- A network of 45 pairs for thirteen elements. -/
def thirteen : Network where
  size := 13
  pairs := [
    (0, 12), (1, 10), (2, 9), (3, 7), (5, 11), (6, 8),
    (1, 6), (2, 3), (4, 11), (7, 9), (8, 10),
    (0, 4), (1, 2), (3, 6), (7, 8), (9, 10), (11, 12),
    (4, 6), (5, 9), (8, 11), (10, 12),
    (0, 5), (3, 8), (4, 7), (6, 11), (9, 10),
    (0, 1), (2, 5), (6, 9), (7, 8), (10, 11),
    (1, 3), (2, 4), (5, 6), (9, 10),
    (1, 2), (3, 4), (5, 7), (6, 8),
    (2, 3), (4, 5), (6, 7), (8, 9),
    (3, 4), (5, 6)]

theorem order_perm (before : β → β → Bool) (xs : Array β) (p : Nat × Nat) :
  (order before xs p).Perm xs
  := by
  rw [order]
  split
  · apply exchange_perm
  · rfl

theorem foldl_order_perm (before : β → β → Bool) (pairs : List (Nat × Nat)) (xs : Array β) :
  (pairs.foldl (order before) xs).Perm xs
  := by
  induction pairs generalizing xs with
  | nil => rfl
  | cons p pairs ih => apply (ih _).trans (order_perm before xs p)

/-- A network permutes. -/
theorem run_perm (network : Network) (before : β → β → Bool) (xs : Array β) :
  (network.run before xs).Perm xs
  := foldl_order_perm before network.pairs xs

end Network

end Numerics
