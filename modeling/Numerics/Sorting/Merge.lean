/-!
# Merging from both ends

`mergeEnds?` merges two sorted lists from both ends at the same time. One half of the merged list
is found from the front and the other half from the back, and between them each element has to be
taken once. Where `before` is no order they may disagree, and then there is no merged list. If there
is one, it is a permutation of both lists (`mergeEnds?_perm`).
-/

namespace Numerics

universe u

variable {β : Type u}

/-- The first `n` elements that a merge takes from `xs` and `ys`, and how many of them are from
`xs`. An element of `xs` is taken unless one of `ys` comes before it. -/
def takeMerged (before : β → β → Bool) : Nat → List β → List β → List β × Nat
  | n + 1, x :: xs, y :: ys =>
    if before y x then
      let (taken, count) := takeMerged before n (x :: xs) ys
      (y :: taken, count)
    else
      let (taken, count) := takeMerged before n xs (y :: ys)
      (x :: taken, count + 1)
  | _, _, _ => ([], 0)

/-- The sorted lists `xs` and `ys` as one, where `ys` is as long as `xs` or longer by one. The
front takes `i` elements of `xs`, and the back takes `j` elements of `ys`. -/
def mergeEnds? (before : β → β → Bool) (xs ys : List β) : Option (List β) :=
  let n := xs.length
  let (front, i) := takeMerged before n xs ys
  let (back, j) := takeMerged (fun x y => before y x) n ys.reverse xs.reverse
  if i ≤ j ∧ n + j ≤ ys.length + i then
    let middle := (xs.take j).drop i ++ (ys.take (ys.length - j)).drop (n - i)
    some (front ++ middle ++ back.reverse)
  else
    none

theorem takeMerged_count_le (before : β → β → Bool) (n : Nat) (xs ys : List β) :
  (takeMerged before n xs ys).2 ≤ n
  := by
  fun_induction takeMerged before n xs ys with
  | case1 => grind
  | case2 => grind
  | case3 => apply Nat.zero_le

/-- A merge takes the first elements of both lists. -/
theorem takeMerged_perm (before : β → β → Bool) {n : Nat} {xs ys : List β} (hx : n ≤ xs.length)
    (hy : n ≤ ys.length) :
  (takeMerged before n xs ys).1.Perm
    (xs.take (takeMerged before n xs ys).2 ++ ys.take (n - (takeMerged before n xs ys).2))
  := by
  induction n generalizing xs ys with
  | zero => rfl
  | succ n ih =>
    obtain ⟨x, xs, rfl⟩ := List.exists_cons_of_length_pos (Nat.lt_of_lt_of_le n.succ_pos hx)
    obtain ⟨y, ys, rfl⟩ := List.exists_cons_of_length_pos (Nat.lt_of_lt_of_le n.succ_pos hy)
    rw [List.length_cons] at hx hy
    rw [takeMerged]
    split
    · have := takeMerged_count_le before n (x :: xs) ys
      rw [Nat.succ_sub this, List.take_succ_cons]
      apply ((ih _ _).cons y).trans List.perm_middle.symm
      · simp; omega
      · omega
    · rw [Nat.succ_sub_succ, List.take_succ_cons]
      apply (ih _ _).cons x
      · omega
      · simp; omega

theorem perm_take_drop {i j : Nat} (h : i ≤ j) (xs : List β) :
  (xs.take i ++ (xs.take j).drop i ++ xs.drop j).Perm xs
  := by
  have := (xs.take j).take_append_drop i
  rw [List.take_take, Nat.min_eq_left h] at this
  rw [this, List.take_append_drop]

/-- Merging permutes. -/
theorem mergeEnds?_perm {before : β → β → Bool} {xs ys zs : List β} (hl : xs.length ≤ ys.length)
    (h : mergeEnds? before xs ys = some zs) :
  zs.Perm (xs ++ ys)
  := by
  classical
  have hf := takeMerged_perm before (Nat.le_refl xs.length) hl
  have hy := Nat.le_of_eq ys.length_reverse.symm
  have hx := Nat.le_of_eq xs.length_reverse.symm
  have hb := takeMerged_perm (fun x y => before y x) (Nat.le_trans hl hy) hx
  have hn := takeMerged_count_le (fun x y => before y x) xs.length ys.reverse xs.reverse
  simp only [mergeEnds?] at h
  generalize takeMerged before xs.length xs ys = front at *
  generalize takeMerged (fun x y => before y x) xs.length ys.reverse xs.reverse = back at *
  split at h
  · rename_i met
    cases h
    have hx := perm_take_drop met.1 xs
    have hy := perm_take_drop (show xs.length - front.2 ≤ ys.length - back.2 by omega) ys
    simp only [List.take_reverse, Nat.sub_sub_self hn] at hb
    rw [List.perm_iff_count] at hf hb hx hy ⊢
    intro a
    specialize hf a
    specialize hb a
    specialize hx a
    specialize hy a
    simp only [List.count_append, List.count_reverse] at hf hb hx hy ⊢
    omega
  · contradiction

end Numerics
