import Mathlib.Algebra.Order.Field.Basic
import Mathlib.Data.Finset.Card
import Mathlib.Data.List.FinRange
import Mathlib.Data.List.GetD
import Mathlib.Data.List.Sort
import Mathlib.Tactic.Linarith
import Numerics.LeastSquares.Robust
import Numerics.Proofs.Scalar.Exact
import Numerics.Proofs.Sorting.Insertion

/-!
# The median of absolute values

In exact arithmetic every list of scalars has one increasing order. So the median absolute value of
a vector always exists, and depends neither on the order of the entries nor on their signs. At least
half of the entries, rounded up, are no greater in absolute value than the median. For an odd number
of entries the median is one of them, and for an even number it is no less than the lower of the two
in the middle.
-/

namespace Numerics

variable {α : Type} [ExactScalar α] {m : Nat}

/-! ### Increasing lists -/

theorem orders_lt :
  Orders (fun a b : α => decide (a < b)) fun _ => True
  := by
  constructor
  · intro x y _ _ hxy
    simp only [decide_eq_true_eq, decide_eq_false_iff_not, not_lt] at hxy ⊢
    exact hxy.le
  · intro x y z _ _ _ hyx hzy
    simp only [decide_eq_false_iff_not, not_lt] at hyx hzy ⊢
    exact hyx.trans hzy

/-- Every list has an increasing order. -/
theorem exists_increasing (xs : List α) :
  ∃ ys, increasing xs = .ok ys ∧ ys.Perm xs ∧ ys.Pairwise (· ≤ ·)
  := by
  have hnumbers : xs.any isNaN = false := by
    rw [List.any_eq_false]
    intro x _
    rw [isNaN_eq]
    exact Bool.false_ne_true
  refine ⟨insertionSort (fun a b => decide (a < b)) xs, ?_, insertionSort_perm _ xs, ?_⟩
  · rw [increasing, hnumbers]
    rfl
  · apply (insertionSort_pairwise orders_lt fun _ _ => trivial).imp
    intro a b hba
    simpa using hba

/-- If an entry of an increasing list is no greater than `a`, then it and the ones before it are
counted. -/
theorem lt_countP_of_getElem_le {l : List α} (h : l.Pairwise (· ≤ ·)) {i : Nat} (hi : i < l.length)
    {a : α} (ha : l[i] ≤ a) :
  i < l.countP fun x => x ≤ a
  := by
  induction l generalizing i with
  | nil => exact absurd hi i.not_lt_zero
  | cons x l ih =>
    rw [List.pairwise_cons] at h
    cases i with
    | zero =>
      rw [List.countP_cons_of_pos]
      · apply Nat.succ_pos
      · apply decide_eq_true ha
    | succ i =>
      rw [List.countP_cons_of_pos]
      · apply Nat.succ_lt_succ
        apply ih h.2 _ ha
      · apply decide_eq_true
        apply (h.1 _ (List.getElem_mem _)).trans ha

/-- One of the entries up to the middle of a list that is not empty is no greater than the middle,
and they are half of the list. -/
theorem exists_getElem_le_middle {l : List α} (h : l.Pairwise (· ≤ ·)) (hl : 0 < l.length) :
  ∃ i, ∃ hi : i < l.length, l[i] ≤ middle l ∧ (l.length + 1) / 2 ≤ i + 1
  := by
  have hhalf : l.length / 2 < l.length := Nat.div_lt_self hl one_lt_two
  have hempty : l.isEmpty = false := List.isEmpty_eq_false_iff.mpr (List.ne_nil_of_length_pos hl)
  rw [middle, hempty, List.getD_eq_getElem _ _ hhalf]
  by_cases hodd : l.length % 2 = 1
  · refine ⟨l.length / 2, hhalf, ?_, ?_⟩
    · rw [if_pos hodd]
      exact le_rfl
    · omega
  · have hbelow : l.length / 2 - 1 < l.length := by omega
    refine ⟨l.length / 2 - 1, hbelow, ?_, ?_⟩
    · have hle : l[l.length / 2 - 1] ≤ l[l.length / 2] :=
        List.pairwise_iff_getElem.mp h _ _ _ _ (by omega)
      rw [if_neg hodd, List.getD_eq_getElem _ _ hbelow, half_eq]
      simp only [Bool.false_eq_true, if_false]
      linarith
    · omega

/-- Half of the entries of an increasing list, rounded up, are no greater than the middle. -/
theorem le_countP_middle {l : List α} (h : l.Pairwise (· ≤ ·)) :
  (l.length + 1) / 2 ≤ l.countP fun x => x ≤ middle l
  := by
  rcases l.length.eq_zero_or_pos with hl | hl
  · rw [hl]
    apply Nat.zero_le
  · obtain ⟨i, hi, hmiddle, hcount⟩ := exists_getElem_le_middle h hl
    apply hcount.trans
    apply lt_countP_of_getElem_le h hi hmiddle

/-! ### Medians -/

theorem exists_medianAbs (v : Vec α m) :
  ∃ ys, medianAbs v = .ok (middle ys) ∧ ys.Perm (v.toList.map abs) ∧ ys.Pairwise (· ≤ ·)
  := by
  obtain ⟨ys, hys, hsorted⟩ := exists_increasing (v.toList.map abs)
  use ys
  rw [medianAbs, hys]
  exact ⟨rfl, hsorted⟩

/-- The absolute values of a vector with its entries rearranged, and some of them negated. -/
theorem toList_map_abs_perm {v w : Vec α m} {σ : Equiv.Perm (Fin m)}
    (h : ∀ i, w i = v (σ i) ∨ w i = -v (σ i)) :
  (w.toList.map abs).Perm (v.toList.map abs)
  := by
  have habs : abs ∘ w.get = (abs ∘ v.get) ∘ σ := by
    funext i
    simpa [abs_eq_abs] using h i
  rw [Vec.toList_eq_ofFn, Vec.toList_eq_ofFn, List.map_ofFn, List.map_ofFn, habs]
  apply σ.ofFn_comp_perm

/-- The median absolute value depends neither on the order of the entries nor on their signs. -/
theorem medianAbs_eq {v w : Vec α m} {σ : Equiv.Perm (Fin m)}
    (h : ∀ i, w i = v (σ i) ∨ w i = -v (σ i)) :
  medianAbs w = medianAbs v
  := by
  obtain ⟨ys, hys, hpermv, hsortedv⟩ := exists_medianAbs v
  obtain ⟨zs, hzs, hpermw, hsortedw⟩ := exists_medianAbs w
  have hperm : zs.Perm ys := (hpermw.trans (toList_map_abs_perm h)).trans hpermv.symm
  rw [hys, hzs, hperm.eq_of_pairwise' hsortedw hsortedv]

/-- The absolute values of half of the entries, rounded up, are no greater than their median. -/
theorem le_card_of_medianAbs {v : Vec α m} {d : α} (h : medianAbs v = .ok d) :
  (m + 1) / 2 ≤ (Finset.univ.filter fun i => |v i| ≤ d).card
  := by
  obtain ⟨ys, hys, hperm, hsorted⟩ := exists_medianAbs v
  obtain rfl := Except.ok.inj (hys.symm.trans h)
  have hlength : ys.length = m := by
    rw [hperm.length_eq, List.length_map, Vec.length_toList]
  have hcount := le_countP_middle hsorted
  rw [hlength, hperm.countP_eq, Vec.toList_eq_ofFn, List.ofFn_eq_map, List.map_map,
    List.countP_map] at hcount
  apply hcount.trans_eq
  rw [← List.toFinset_finRange, (List.nodup_finRange m).card_eq_countP]
  apply List.countP_congr
  intro i _
  simp

end Numerics
