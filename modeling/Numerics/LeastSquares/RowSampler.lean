import Numerics.Random.Xoshiro
import Numerics.Vec

/-!
# Choosing rows at random

A `RowSampler` draws some of the indices below `m` without replacement: it shuffles the first places
of a list of all indices and reads them off. The list keeps its order from one draw to the next.

A sampler does not know where its random choices come from. It asks a `ChoiceSource` for an index
that is not below a given one, so whatever the source answers, the places stay a permutation.
-/

namespace Numerics

universe u

/-- A source of random choices. -/
class ChoiceSource (γ : Type u) where
  /-- An index that is not below `k`, and the source after the choice. -/
  choose {m : Nat} (source : γ) (k : Fin m) : { j : Fin m // k ≤ j } × γ

/-- An index that is not below `k` is a choice among the `m - k` places that are left. -/
instance : ChoiceSource Random.Xoshiro where
  choose {m} source k :=
    let (j, source) := source.choose (Nat.sub_pos_of_lt k.isLt)
    (⟨⟨k.val + j.val, by omega⟩, by simp [Fin.le_def]⟩, source)

/-- A sampler of `count` indices below `m`. -/
structure RowSampler (γ : Type u) (m : Nat) where
  /-- Where random choices come from. -/
  source : γ
  /-- The number of indices in a draw. -/
  count : Nat
  /-- There are enough indices for a draw. -/
  count_le : count ≤ m
  /-- All indices, in the order that the draws left them. -/
  rows : Vec (Fin m) m

namespace RowSampler

variable {γ : Type u} {m : Nat}

/-- A sampler of as many rows as are requested, but at least one for each unknown and at most all. A
request for no rows stands for half of them, rounded up. -/
def start (source : γ) (requested unknowns : Nat) : RowSampler γ m where
  source
  count := min (max (if requested = 0 then (m + 1) / 2 else requested) unknowns) m
  count_le := Nat.min_le_right _ _
  rows := Vec.ofFn id

/-- The sampler after an exchange of the row in the place `k` with a random row there or after it.
-/
def shuffle [ChoiceSource γ] (s : RowSampler γ m) (k : Fin m) : RowSampler γ m :=
  let (j, source) := ChoiceSource.choose s.source k
  { s with source, rows := s.rows.swap k j }

/-- The sampler after the first `k` places were shuffled, one after another. -/
def shuffleFirst [ChoiceSource γ] (s : RowSampler γ m) : (k : Nat) → k ≤ m → RowSampler γ m
  | 0, _ => s
  | k + 1, h => (s.shuffleFirst k (Nat.le_of_succ_le h)).shuffle ⟨k, h⟩

/-- The sampler after the next draw. -/
def next [ChoiceSource γ] (s : RowSampler γ m) : RowSampler γ m :=
  s.shuffleFirst s.count s.count_le

/-- The rows of the last draw. -/
def drawn (s : RowSampler γ m) : List (Fin m) :=
  s.rows.toList.take s.count

@[simp]
theorem length_drawn (s : RowSampler γ m) :
  s.drawn.length = s.count
  := by
  rw [drawn, List.length_take, Vec.length_toList, Nat.min_eq_left s.count_le]

end RowSampler

end Numerics
