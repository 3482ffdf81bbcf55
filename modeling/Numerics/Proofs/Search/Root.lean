import Mathlib.Analysis.Convex.Slope
import Mathlib.Tactic.NormNum
import Numerics.Proofs.Iteration
import Numerics.Proofs.Scalar.Exact
import Numerics.Proofs.Steps
import Numerics.Search.Root

/-!
# Root searches from above

In exact arithmetic a root search repeats one map of samples, `Root.advance`. The sample after any
number of rounds is an `approach` to the root, and whatever the function, the search ends with one
of these samples.

Let the function rise strictly, and be convex. Then the chord ahead of a point above the root is at
least as steep as the chord back to the root. So the correction is no longer than the distance to
the root: the search comes down to the root, and never passes it.
-/

namespace Numerics

namespace Root

section

variable {α : Type} [RealScalar α]

/-- The root search from `x₀` comes to the point and value `s` after `k` rounds. -/
def Visited (f : α → α) (x₀ : α) (options : Options α) (k : Nat) (s : Brent.Sample α) : Prop :=
  Reached (fun k s => (step f options k s).outcome) ⟨x₀, f x₀⟩ k s

/-- The sample at the point that the slope of `f` at `s` suggests. -/
def advance (f : α → α) (h : α) (s : Brent.Sample α) : Brent.Sample α :=
  ⟨s.x - correction f h s, f (s.x - correction f h s)⟩

/-- The sample after `k` corrections, from the one at `x₀`. -/
def approach (f : α → α) (h x₀ : α) (k : Nat) : Brent.Sample α :=
  (advance f h)^[k] ⟨x₀, f x₀⟩

theorem approach_succ (f : α → α) (h x₀ : α) (k : Nat) :
  approach f h x₀ (k + 1) = advance f h (approach f h x₀ k)
  := Function.iterate_succ_apply' _ _ _

theorem value_approach (f : α → α) (h x₀ : α) (k : Nat) :
  (approach f h x₀ k).value = f (approach f h x₀ k).x
  := by
  cases k with
  | zero => rfl
  | succ k => rw [approach_succ, advance]

end

/-! ### Rounds in exact arithmetic -/

variable {α : Type} [ExactScalar α] {f : α → α} {options : Options α} {x₀ : α} {k : Nat}
  {s : Brent.Sample α}

/-- A round ends at a root, or after a short correction, and goes on otherwise. -/
theorem outcome_step (f : α → α) (options : Options α) (k : Nat) (s : Brent.Sample α) :
  (step f options k s).outcome
    = .ok (if s.value = 0 then .done ⟨s.x, s.value, k, true⟩
      else
        let t := advance f options.secantSpacing s
        if |correction f options.secantSpacing s| < options.tolerance then
          .done ⟨t.x, t.value, k + 1, true⟩
        else
          .next t)
  := by
  simp only [step, beq_eq, decide_eq_true_eq, isFinite_eq, if_true, abs_eq]
  split
  case isTrue => rfl
  case isFalse => split <;> rfl

/-- The samples that a search comes to are the approach to the root. -/
theorem Visited.eq_approach (h : Visited f x₀ options k s) :
  s = approach f options.secantSpacing x₀ k
  := by
  induction h with
  | start => rfl
  | next _ hstep ih =>
    rw [outcome_step] at hstep
    split at hstep
    case isTrue => cases hstep
    case isFalse =>
      dsimp only at hstep
      split at hstep
      case isTrue => cases hstep
      case isFalse =>
        cases hstep
        rw [approach_succ, ← ih]

/-- A search that ends after a round ends with the approach to the root. -/
theorem Visited.done_eq (h : Visited f x₀ options k s) {result : ScalarResult α}
    (hstep : (step f options k s).outcome = .ok (.done result)) :
  result.iterations ≤ k + 1
    ∧ result.x = (approach f options.secantSpacing x₀ result.iterations).x
    ∧ result.value = f result.x
  := by
  obtain rfl := h.eq_approach
  rw [outcome_step] at hstep
  split at hstep
  case isTrue =>
    cases hstep
    exact ⟨Nat.le_succ k, rfl, value_approach _ _ _ _⟩
  case isFalse =>
    dsimp only at hstep
    split at hstep
    case isTrue =>
      cases hstep
      rw [← approach_succ]
      exact ⟨Nat.le_refl _, rfl, value_approach _ _ _ _⟩
    case isFalse => cases hstep

end Root

open Root

/-- Whatever the function, a root search has a result: the approach to the root after some number of
rounds within the budget. -/
theorem exists_findRoot {α : Type} [ExactScalar α] (f : α → α) (x₀ : α) (options : Options α) :
  ∃ result, (findRoot f x₀ options).outcome = .ok result
    ∧ result.iterations ≤ options.iterations
    ∧ result.x = (approach f options.secantSpacing x₀ result.iterations).x
    ∧ result.value = f result.x
  := by
  cases h : (findRoot f x₀ options).outcome with
  | error e =>
    rw [findRoot, Run.outcome_iterate] at h
    obtain ⟨k, s, -, ⟨-, hstep⟩ | ⟨-, hlast⟩⟩ := exists_reached_error h
    · rw [outcome_step] at hstep
      cases hstep
    · cases hlast
  | ok result =>
    use result, rfl
    obtain ⟨k, s, hs, ⟨hk, hstep⟩ | ⟨rfl, hlast⟩⟩ := Run.exists_reached h
    · obtain ⟨hiterations, hresult⟩ := Visited.done_eq hs hstep
      exact ⟨hiterations.trans hk, hresult⟩
    · obtain rfl := Visited.eq_approach hs
      cases hlast
      exact ⟨Nat.le_refl _, rfl, value_approach _ _ _ _⟩

/-! ### Convex functions that rise -/

/-- The function `f` is convex, rises strictly, and has the root `r`. -/
structure RisesConvexly {α : Type} [ExactScalar α] (f : α → α) (r : α) : Prop where
  convex : ConvexOn α Set.univ f
  rises : StrictMono f
  root : f r = 0

namespace RisesConvexly

variable {α : Type} [ExactScalar α] {f : α → α} {r x₀ h : α} {s : Brent.Sample α}

theorem value_nonneg (hf : RisesConvexly f r) {x : α} (hx : r ≤ x) :
  0 ≤ f x
  := by
  rw [← hf.root]
  apply hf.rises.monotone hx

/-- The divisor of a correction is positive. -/
theorem divisor_pos (hf : RisesConvexly f r) (hh : 0 < h) (x : α) :
  0 < f (x + h) - f x
  := by
  apply sub_pos.mpr
  apply hf.rises
  apply lt_add_of_pos_right x hh

theorem correction_nonneg (hf : RisesConvexly f r) (hh : 0 < h) (hvalue : s.value = f s.x)
    (hs : r ≤ s.x) :
  0 ≤ correction f h s
  := by
  rw [correction, hvalue]
  apply div_nonneg (mul_nonneg hh.le (hf.value_nonneg hs)) (hf.divisor_pos hh s.x).le

/-- A correction is no longer than the distance to the root, as the chord back to the root is no
steeper than the chord ahead. -/
theorem correction_le (hf : RisesConvexly f r) (hh : 0 < h) (hvalue : s.value = f s.x)
    (hs : r ≤ s.x) :
  correction f h s ≤ s.x - r
  := by
  rw [correction, hvalue]
  obtain rfl | hlt := hs.eq_or_lt
  · rw [hf.root, mul_zero, zero_div, sub_self]
  · have hslope : f s.x / (s.x - r) ≤ (f (s.x + h) - f s.x) / h := by
      have hchords := hf.convex.slope_mono_adjacent (Set.mem_univ r) (Set.mem_univ (s.x + h)) hlt
        (lt_add_of_pos_right _ hh)
      rw [hf.root, sub_zero, add_sub_cancel_left] at hchords
      exact hchords
    rw [div_le_div_iff₀ (sub_pos.mpr hlt) hh] at hslope
    rw [div_le_iff₀ (hf.divisor_pos hh s.x), mul_comm h, mul_comm (s.x - r)]
    exact hslope

/-- A correction comes down to the root, and does not pass it. -/
theorem advance_mem (hf : RisesConvexly f r) (hh : 0 < h) (hvalue : s.value = f s.x)
    (hs : r ≤ s.x) :
  r ≤ (advance f h s).x ∧ (advance f h s).x ≤ s.x
  := by
  rw [advance]
  constructor
  · apply le_sub_comm.mp (hf.correction_le hh hvalue hs)
  · apply sub_le_self _ (hf.correction_nonneg hh hvalue hs)

theorem approach_mem (hf : RisesConvexly f r) (hh : 0 < h) (hx₀ : r ≤ x₀) (k : Nat) :
  r ≤ (approach f h x₀ k).x ∧ (approach f h x₀ k).x ≤ x₀
  := by
  induction k with
  | zero => exact ⟨hx₀, le_rfl⟩
  | succ k ih =>
    obtain ⟨hroot, hdown⟩ := hf.advance_mem hh (value_approach f h x₀ k) ih.1
    rw [approach_succ]
    exact ⟨hroot, hdown.trans ih.2⟩

end RisesConvexly

/-- In exact arithmetic with a positive step of the slope, let a function be convex, rise strictly,
and have a root that is not above the start. No correction divides by zero, each sample lies between
the root and the sample before, and the search has one of them as its result, whatever the budget
and the tolerance. -/
theorem findRoot_descends {α : Type} [ExactScalar α] {f : α → α} {r x₀ : α} {options : Options α}
    (hf : RisesConvexly f r) (hspacing : 0 < options.secantSpacing) (hx₀ : r ≤ x₀) :
  (∀ k s, Visited f x₀ options k s → s = approach f options.secantSpacing x₀ k)
    ∧ (∀ k,
      let s := approach f options.secantSpacing x₀ k
      let t := approach f options.secantSpacing x₀ (k + 1)
      0 < f (s.x + options.secantSpacing) - s.value ∧ r ≤ t.x ∧ t.x ≤ s.x ∧ s.x ≤ x₀)
    ∧ ∃ result, (findRoot f x₀ options).outcome = .ok result
      ∧ result.iterations ≤ options.iterations
      ∧ result.x = (approach f options.secantSpacing x₀ result.iterations).x
      ∧ result.value = f result.x
      ∧ r ≤ result.x ∧ result.x ≤ x₀ ∧ 0 ≤ result.value ∧ result.value ≤ f x₀
  := by
  have hmem := hf.approach_mem hspacing hx₀
  refine ⟨fun k s hs => hs.eq_approach, ?_, ?_⟩
  · intro k s t
    have hvalue : s.value = f s.x := value_approach _ _ _ _
    obtain ⟨hroot, hdown⟩ := hf.advance_mem hspacing hvalue (hmem k).1
    have ht : t = advance f options.secantSpacing s := approach_succ _ _ _ _
    rw [hvalue, ht]
    exact ⟨hf.divisor_pos hspacing s.x, hroot, hdown, (hmem k).2⟩
  · obtain ⟨result, hresult, hiterations, hx, hvalue⟩ := exists_findRoot f x₀ options
    obtain ⟨hroot, hstart⟩ := hmem result.iterations
    rw [← hx] at hroot hstart
    refine ⟨result, hresult, hiterations, hx, hvalue, hroot, hstart, ?_, ?_⟩
    · rw [hvalue]
      apply hf.value_nonneg hroot
    · rw [hvalue]
      apply hf.rises.monotone hstart

/-- Two rounds on a function with a kink come down from `2` by way of `1 / 2` to `1 / 6`. -/
theorem findRoot_descends_kink :
  let f : ℚ → ℚ := fun x => max x (x + x + -1)
  let options : Options ℚ :=
    { Options.standard (1 / 1000) with secantSpacing := 1, iterations := 2 }
  RisesConvexly f 0 ∧ 0 < options.secantSpacing ∧ (0 : ℚ) ≤ 2
    ∧ (approach f 1 2 1).x = 1 / 2
    ∧ ∃ result, (findRoot f 2 options).outcome = .ok result
      ∧ result.iterations = 2 ∧ result.x = 1 / 6
      ∧ 0 ≤ result.x ∧ result.x ≤ 2 ∧ 0 ≤ result.value ∧ result.value ≤ f 2
  := by
  intro f options
  have hf : RisesConvexly f 0 := by
    constructor
    · have hid : ConvexOn ℚ Set.univ (fun x : ℚ => x) := convexOn_id convex_univ
      exact hid.sup ((hid.add hid).add_const (-1))
    · intro x y hxy
      apply max_lt_max hxy
      linarith
    · norm_num [f]
  have hspacing : 0 < options.secantSpacing := one_pos
  have hfirst : (approach f 1 2 1).x = 1 / 2 := by decide +kernel
  obtain ⟨result, hok, hiterations, hx⟩ : ∃ result,
      (findRoot f 2 options).outcome = .ok result ∧ result.iterations = 2 ∧ result.x = 1 / 6 := by
    apply exists_of_any
    decide +kernel
  obtain ⟨-, -, result', hok', -, -, -, hroot, hstart, hvalue⟩ :=
    findRoot_descends hf hspacing zero_le_two
  obtain rfl : result = result' := Except.ok.inj (hok.symm.trans hok')
  exact ⟨hf, hspacing, zero_le_two, hfirst, result, hok, hiterations, hx, hroot, hstart, hvalue⟩

end Numerics
