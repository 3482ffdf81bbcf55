import Mathlib.Data.List.Nodup
import Mathlib.Logic.Function.Iterate
import Numerics.LeastSquares.RowSampler

/-!
# Draws without replacement

Whatever a source chooses, a shuffle exchanges two places of the list of a sampler. So the list of a
sampler that has been started holds every index once, after any number of draws, and a sampler is
`Complete` as long as it does. A draw then has no index twice, and a draw of as many indices as
there are is a permutation of all of them.

What a sampler asks of its source is seen by a source that is `Recorded`, which keeps the ranges
that it was asked to choose from. Each draw asks for as many choices as it has rows, every time from
one place fewer than before, and there is always a place left.
-/

namespace Numerics

universe u

theorem Vec.toList_swap_perm {β : Type} {n : Nat} (v : Vec β n) (i j : Fin n) :
  (v.swap i j).toList.Perm v.toList
  := (Vector.swap_perm i.isLt j.isLt).toList

namespace RowSampler

variable {γ : Type u} {m : Nat} {s : RowSampler γ m}

/-- The list of the sampler holds every index once. -/
def Complete (s : RowSampler γ m) : Prop :=
  s.rows.toList.Perm (List.finRange m)

theorem start_complete (source : γ) (requested unknowns : Nat) :
  (start source requested unknowns : RowSampler γ m).Complete
  := by
  have hrows : (start source requested unknowns : RowSampler γ m).rows.toList = List.finRange m :=
    Vector.toList_ofFn
  rw [Complete, hrows]

/-- A request for all rows is granted. -/
theorem count_start (source : γ) {requested : Nat} (unknowns : Nat) (h : m ≤ requested) :
  (start source requested unknowns : RowSampler γ m).count = m
  := by
  show min (max (if requested = 0 then (m + 1) / 2 else requested) unknowns) m = m
  split <;> omega

/-- A draw of all indices has each of them once. -/
theorem Complete.drawn_perm (h : s.Complete) (hcount : s.count = m) :
  s.drawn.Perm (List.finRange m)
  := by
  have hall : s.drawn = s.rows.toList := by
    apply List.take_of_length_le
    exact Nat.le_of_eq (s.rows.length_toList.trans hcount.symm)
  rw [hall]
  exact h

/-- A draw has no index twice. -/
theorem Complete.nodup_drawn (h : s.Complete) :
  s.drawn.Nodup
  := by
  have hrows : s.rows.toList.Nodup := h.nodup_iff.mpr (List.nodup_finRange m)
  exact hrows.sublist (List.take_sublist s.count _)

/-! ### Shuffles -/

variable [ChoiceSource γ]

theorem Complete.shuffle (h : s.Complete) (k : Fin m) :
  (s.shuffle k).Complete
  := (Vec.toList_swap_perm s.rows k _).trans h

theorem Complete.shuffleFirst (h : s.Complete) (k : Nat) (hk : k ≤ m) :
  (s.shuffleFirst k hk).Complete
  := by
  induction k with
  | zero => exact h
  | succ k ih => exact (ih _).shuffle _

theorem Complete.next (h : s.Complete) :
  s.next.Complete
  := h.shuffleFirst s.count s.count_le

theorem count_shuffleFirst (s : RowSampler γ m) (k : Nat) (hk : k ≤ m) :
  (s.shuffleFirst k hk).count = s.count
  := by
  induction k with
  | zero => rfl
  | succ k ih => exact ih _

theorem count_next (s : RowSampler γ m) :
  s.next.count = s.count
  := s.count_shuffleFirst s.count s.count_le

/-! ### Draws -/

theorem Complete.iterate_next (h : s.Complete) (draws : Nat) :
  (RowSampler.next^[draws] s).Complete
  := by
  induction draws with
  | zero => exact h
  | succ draws ih =>
    rw [Function.iterate_succ_apply']
    exact ih.next

theorem count_iterate_next (s : RowSampler γ m) (draws : Nat) :
  (next^[draws] s).count = s.count
  := by
  induction draws with
  | zero => rfl
  | succ draws ih => rw [Function.iterate_succ_apply', count_next, ih]

end RowSampler

/-! ### Records -/

/-- A source that keeps a record of the ranges that it is asked to choose from. -/
structure Recorded (γ : Type u) where
  source : γ
  /-- The least index of each range and the first one after it, in the order of the choices. -/
  asked : List (Nat × Nat)

instance {γ : Type u} [ChoiceSource γ] : ChoiceSource (Recorded γ) where
  choose {m} s k :=
    let (j, source) := ChoiceSource.choose s.source k
    (j, ⟨source, s.asked ++ [(k.val, m)]⟩)

namespace RowSampler

variable {γ : Type u} {m : Nat}

/-- The sampler without the record of its source. -/
def unrecorded (s : RowSampler (Recorded γ) m) : RowSampler γ m :=
  ⟨s.source.source, s.count, s.count_le, s.rows⟩

/-- The ranges that a draw of `count` indices below `m` chooses from. -/
def ranges (count m : Nat) : List (Nat × Nat) :=
  (List.range count).map fun k => (k, m)

/-- A draw never chooses from an empty range. -/
theorem lt_of_mem_ranges {count : Nat} (h : count ≤ m) {range : Nat × Nat}
    (hrange : range ∈ ranges count m) :
  range.1 < range.2
  := by
  obtain ⟨k, hk, rfl⟩ := List.mem_map.mp hrange
  exact Nat.lt_of_lt_of_le (List.mem_range.mp hk) h

theorem ranges_succ (count m : Nat) :
  ranges (count + 1) m = ranges count m ++ [(count, m)]
  := by
  rw [ranges, List.range_succ, List.map_append]
  rfl

variable [ChoiceSource γ] (s : RowSampler (Recorded γ) m)

theorem unrecorded_shuffleFirst (k : Nat) (hk : k ≤ m) :
  (s.shuffleFirst k hk).unrecorded = s.unrecorded.shuffleFirst k hk
  := by
  induction k with
  | zero => rfl
  | succ k ih =>
    rw [shuffleFirst, shuffleFirst, ← ih]
    rfl

theorem asked_shuffleFirst (k : Nat) (hk : k ≤ m) :
  (s.shuffleFirst k hk).source.asked = s.source.asked ++ ranges k m
  := by
  induction k with
  | zero => exact (List.append_nil _).symm
  | succ k ih =>
    have hshuffle : (s.shuffleFirst (k + 1) hk).source.asked
        = (s.shuffleFirst k (Nat.le_of_succ_le hk)).source.asked ++ [(k, m)] := rfl
    rw [hshuffle, ih, ranges_succ, List.append_assoc]

/-- A record makes no difference to the draws. -/
theorem unrecorded_iterate_next (draws : Nat) :
  (next^[draws] s).unrecorded = next^[draws] s.unrecorded
  := by
  have hsemiconj : Function.Semiconj unrecorded (next (γ := Recorded γ) (m := m)) next :=
    fun s => s.unrecorded_shuffleFirst s.count s.count_le
  exact hsemiconj.iterate_right draws s

/-- The record of several draws is that of one draw, over and over. -/
theorem asked_iterate_next (draws : Nat) :
  (next^[draws] s).source.asked
    = s.source.asked ++ (List.replicate draws (ranges s.count m)).flatten
  := by
  induction draws with
  | zero => exact (List.append_nil _).symm
  | succ draws ih =>
    rw [Function.iterate_succ_apply', next, asked_shuffleFirst, ih, count_iterate_next,
      List.replicate_succ', List.flatten_append, List.flatten_singleton, List.append_assoc]

omit s in
/-- Whatever the source chooses, and whatever numbers of rows and of unknowns a sampler is started
for: the number of rows in a draw is at least that of the unknowns, as far as there are rows, and at
most the number of all rows. After any number of draws, and in the middle of one, the list of the
sampler is a permutation of all rows. Every draw has the same number of rows, and none of them
twice. And a source that keeps a record is asked the same in each draw, to choose from the places
that are left, of which there is always one. -/
theorem draws_without_replacement (source : γ) (requested unknowns : Nat) :
  let s : RowSampler γ m := start source requested unknowns
  let recorded : RowSampler (Recorded γ) m := start ⟨source, []⟩ requested unknowns
  min unknowns m ≤ s.count ∧ s.count ≤ m
    ∧ ∀ draws,
      (∀ k (hk : k ≤ m), ((next^[draws] s).shuffleFirst k hk).rows.toList.Perm (List.finRange m))
      ∧ (next^[draws] s).drawn.length = s.count
      ∧ (next^[draws] s).drawn.Nodup
      ∧ (next^[draws] recorded).unrecorded = next^[draws] s
      ∧ (next^[draws] recorded).source.asked = (List.replicate draws (ranges s.count m)).flatten
      ∧ ∀ range ∈ (next^[draws] recorded).source.asked, range.1 < range.2
  := by
  intro s recorded
  have hs : s.Complete := start_complete source requested unknowns
  have hasked : ∀ draws, (next^[draws] recorded).source.asked
      = (List.replicate draws (ranges s.count m)).flatten := by
    intro draws
    exact recorded.asked_iterate_next draws
  refine ⟨?_, s.count_le, ?_⟩
  · show min unknowns m ≤ min (max _ unknowns) m
    omega
  · intro draws
    refine ⟨?_, ?_, (hs.iterate_next draws).nodup_drawn, recorded.unrecorded_iterate_next draws,
      hasked draws, ?_⟩
    · intro k hk
      exact (hs.iterate_next draws).shuffleFirst k hk
    · rw [length_drawn, count_iterate_next]
    · intro range hrange
      rw [hasked] at hrange
      obtain ⟨ranges', hranges', hrange⟩ := List.mem_flatten.mp hrange
      rw [List.eq_of_mem_replicate hranges'] at hrange
      exact lt_of_mem_ranges s.count_le hrange

omit [ChoiceSource γ] in
/-- The second of several draws of three of five rows, and the middle of it. -/
theorem draws_without_replacement_seeded :
  let s : RowSampler Random.Xoshiro 5 := start (.ofSeed 7) 3 2
  let recorded : RowSampler (Recorded Random.Xoshiro) 5 := start ⟨.ofSeed 7, []⟩ 3 2
  (next^[2] s).drawn = [3, 2, 1]
    ∧ (next^[2] s).drawn.Nodup
    ∧ (∃ h : 2 ≤ 5, ((next^[1] s).shuffleFirst 2 h).rows.toList.Perm (List.finRange 5))
    ∧ (2, 5) ∈ (next^[2] recorded).source.asked
    ∧ 2 < 5
  := by
  intro s recorded
  have hdraws : ∀ draws, (∀ k (hk : k ≤ 5),
        ((next^[draws] s).shuffleFirst k hk).rows.toList.Perm (List.finRange 5))
      ∧ (next^[draws] s).drawn.Nodup
      ∧ ∀ range ∈ (next^[draws] recorded).source.asked, range.1 < range.2 := by
    intro draws
    obtain ⟨hrows, -, hnodup, -, -, hranges⟩ :=
      (draws_without_replacement (Random.Xoshiro.ofSeed 7) 3 2).2.2 draws
    exact ⟨hrows, hnodup, hranges⟩
  have hdrawn : (next^[2] s).drawn = [3, 2, 1] := by decide +kernel
  have hasked : (2, 5) ∈ (next^[2] recorded).source.asked := by decide +kernel
  have hle : 2 ≤ 5 := by decide
  exact ⟨hdrawn, (hdraws 2).2.1, ⟨hle, (hdraws 1).1 2 hle⟩, hasked, (hdraws 2).2.2 _ hasked⟩

end RowSampler

end Numerics
