import Mathlib.Algebra.Order.Field.Basic
import Mathlib.Tactic.NormNum
import Numerics.Proofs.Coherence
import Numerics.Proofs.Mat.Positive
import Numerics.Proofs.Search.Ray

/-!
# Directions that lead downhill

In exact arithmetic a descent along conjugate directions is `Steered` in every state that it comes
to: its value and its gradient are those at its point, its direction leads downhill unless the
gradient is zero, and a direction that counts as steepest is the opposite of the gradient. A step
establishes this in one of two ways: it restarts along the steepest descent, or it mixes the old
direction in, and checks that the mixture leads downhill.

With a positive tolerance no line search starts where the gradient is zero. So a descent ends where
the gradient is short, or where its budget is spent, or where the steepest descent itself `Stalls`.
-/

namespace Numerics

variable {α : Type} {n : Nat}

/-! ### Steepest descent -/

section

variable [ExactReal α]

theorem Vec.neg_dot_self_neg {v : Vec α n} (h : v ≠ 0) :
  (-v).dot v < 0
  := by
  rw [dot_comm, dot_neg, neg_lt_zero]
  apply dot_self_pos h

/-- A vector that is not shorter than a positive scalar is not zero. -/
theorem Vec.ne_zero_of_norm {v : Vec α n} {b : α} (hb : 0 < b) (h : ¬ v.norm < b) :
  v ≠ 0
  := by
  rintro rfl
  apply h
  have hzero : (0 : Vec α n).norm = 0 := by
    rw [← mul_self_eq_zero, norm_mul_norm, dot_zero]
  rw [hzero]
  exact hb

end

namespace ConjugateGradient

/-! ### What a step does with the direction -/

section

variable [RealScalar α] {f : Vec α n → α} {grad : Vec α n → Vec α n} {options : Options α}

/-- A line search along the steepest descent from `x` makes no progress: its step is lost in
rounding, and the value after it is no smaller. -/
def Stalls (f : Vec α n → α) (grad : Vec α n → Vec α n) (options : Options α) (x : Vec α n) :
    Prop :=
  ∃ line, (minimizeRay (fun t => f (x + -grad x * t)) options).outcome = .ok line
    ∧ (-grad x * line.x).norm ≤ epsilon * (1 + (x + -grad x * line.x).norm)
    ∧ f x ≤ line.value

/-- The descent from `x₀` comes to the state `s` after `i` rounds. -/
def Visited (f : Vec α n → α) (grad : Vec α n → Vec α n) (x₀ : Vec α n) (options : Options α)
    (i : Nat) (s : State α n) : Prop :=
  Reached (fun i s => (step f grad options i s).outcome) (start f grad x₀) i s

/-- A line search from `s` makes no progress, although its direction counts as steepest. -/
structure Stuck (f : Vec α n → α) (options : Options α) (s : State α n) : Prop where
  long : ¬ s.slope.norm < options.tolerance
  steepest : s.steepest = true
  noProgress : ∃ line, (minimizeRay (along f s) options).outcome = .ok line
    ∧ noProgress s (s.direction * line.x) line.value = true

theorem noProgress_iff {s : State α n} {d : Vec α n} {v : α} :
  noProgress s d v = true
    ↔ d.norm ≤ epsilon * (1 + (s.x + d).norm) ∧ s.value ≤ v
  := by
  rw [noProgress, Bool.and_eq_true, decide_eq_true_iff, decide_eq_true_iff]

/-- A line search announces how the search on its bracket ended, if anything. -/
theorem mem_events_minimizeRay {φ : α → α} {e : Event α}
    (h : e ∈ (minimizeRay φ options).events) :
  (∃ k, e = .intervalSettled k) ∨ e = .intervalUnsettled options.iterations
  := by
  obtain h | ⟨i, -, h⟩ := Run.mem_events_bind.mp h
  · cases h
  · obtain rfl := List.mem_singleton.mp h
    split
    case isTrue =>
      left
      exact ⟨_, rfl⟩
    case isFalse =>
      right
      rfl

/-- A round that announces a stall is stuck, and ends the descent. -/
theorem stuck_of_event {i k : Nat} {s : State α n} {v : α}
    (h : .descentStalled k v ∈ (step f grad options i s).events) :
  Stuck f options s ∧ k = i + 1 ∧ v = s.slope.norm
    ∧ (step f grad options i s).outcome = .ok (.done ⟨s.x, s.value, i + 1, false⟩)
  := by
  rw [step] at h ⊢
  split at h
  case isTrue => cases h
  case isFalse hlong =>
    rw [if_neg hlong]
    obtain h | ⟨line, hline, h⟩ := Run.mem_events_bind.mp h
    · obtain ⟨_, h⟩ | h := mem_events_minimizeRay h <;> cases h
    · rw [Run.bind_of_ok hline]
      dsimp only at h ⊢
      split at h
      case isTrue hlost =>
        rw [if_pos hlost]
        split at h
        case isTrue hsteepest =>
          rw [if_pos hsteepest]
          cases List.mem_singleton.mp h
          exact ⟨⟨hlong, hsteepest, line, hline, hlost⟩, rfl, rfl, rfl⟩
        case isFalse => cases h
      case isFalse => cases h

/-- A round that ends the descent short of a minimum is stuck. -/
theorem stuck_of_not_converged {i : Nat} {s : State α n} {r : Minimum α n}
    (h : (step f grad options i s).outcome = .ok (.done r)) (hr : r.converged = false) :
  Stuck f options s
  := by
  rw [step] at h
  split at h
  case isTrue =>
    cases h
    cases hr
  case isFalse hlong =>
    obtain ⟨line, hline, h⟩ := Run.outcome_bind_eq_ok.mp h
    dsimp only at h
    split at h
    case isTrue hlost =>
      split at h
      case isTrue hsteepest => exact ⟨hlong, hsteepest, line, hline, hlost⟩
      case isFalse => cases h
    case isFalse => cases h

/-- A round that is stuck announces a stall. -/
theorem Stuck.mem_events {s : State α n} (h : Stuck f options s) (grad : Vec α n → Vec α n)
    (i : Nat) :
  .descentStalled (i + 1) s.slope.norm ∈ (step f grad options i s).events
  := by
  obtain ⟨line, hline, hlost⟩ := h.noProgress
  rw [step, if_neg h.long, Run.bind_of_ok hline]
  dsimp only
  rw [if_pos hlost, if_pos h.steepest]
  apply List.mem_append_right
  apply List.mem_singleton_self

/-- A line search that makes progress moves the descent to where it ends. -/
theorem step_of_progress {s : State α n} {line : ScalarResult α}
    (hlong : ¬ s.slope.norm < options.tolerance)
    (hline : (minimizeRay (along f s) options).outcome = .ok line)
    (hprogress : ¬ noProgress s (s.direction * line.x) line.value = true)
    (grad : Vec α n → Vec α n) (i : Nat) :
  (step f grad options i s).outcome
    = .ok (.next (move grad s (s.direction * line.x) line.value))
  := by
  rw [step, if_neg hlong, Run.bind_of_ok hline]
  dsimp only
  rw [if_neg hprogress]
  rfl

/-- The next direction is the steepest one, or a mixture that leads downhill. -/
theorem direction_move (grad : Vec α n → Vec α n) (s : State α n) (d : Vec α n) (v : α) :
  (move grad s d v).direction = -(move grad s d v).slope
    ∨ (¬ (move grad s d v).direction.dot (move grad s d v).slope ≥ 0
      ∧ ∃ beta : α, (move grad s d v).direction = s.direction * beta - (move grad s d v).slope
        ∧ (move grad s d v).steepest = (beta == 0))
  := by
  unfold move
  dsimp only
  split
  case isTrue =>
    left
    rfl
  case isFalse hdown =>
    right
    exact ⟨hdown, _, rfl, rfl⟩

end

/-! ### What all steps keep -/

variable [ExactReal α] {f : Vec α n → α} {grad : Vec α n → Vec α n} {x₀ : Vec α n}
  {options : Options α} {s : State α n} {i : Nat}

/-- The value and the gradient are those at the point, and the direction leads downhill. -/
structure Steered (f : Vec α n → α) (grad : Vec α n → Vec α n) (s : State α n) : Prop where
  value : s.value = f s.x
  slope : s.slope = grad s.x
  downhill : s.slope ≠ 0 → s.direction.dot s.slope < 0
  steepest : s.steepest = true → s.direction = -s.slope

theorem downhill_of_steepest (h : s.direction = -s.slope) (hs : s.slope ≠ 0) :
  s.direction.dot s.slope < 0
  := by
  rw [h]
  apply Vec.neg_dot_self_neg hs

/-- A move along the line that was searched is a state of this kind. If the old direction has no
share in the new one, then nothing but the gradient is left. -/
theorem move_steered (s : State α n) {d : Vec α n} {v : α} (hv : v = f (s.x + d)) :
  Steered f grad (move grad s d v)
  := by
  have hvalue : (move grad s d v).value = f (move grad s d v).x := by
    rw [value_move, x_move, hv]
  obtain hsteepest | ⟨hdown, beta, hmix, hflag⟩ := direction_move grad s d v
  · exact ⟨hvalue, slope_move _ _ _ _, downhill_of_steepest hsteepest, fun _ => hsteepest⟩
  · refine ⟨hvalue, slope_move _ _ _ _, fun _ => not_le.mp hdown, ?_⟩
    intro hzero
    rw [hflag, beq_eq, decide_eq_true_iff] at hzero
    rw [hmix, hzero]
    ext k
    simp

/-- What one step keeps. -/
theorem Steered.next (h : Steered f grad s) {s' : State α n}
    (hstep : (step f grad options i s).outcome = .ok (.next s')) :
  Steered f grad s'
  := by
  rcases step_eq_ok hstep with ⟨-, hs⟩ | hs | hs | ⟨line, hline, hs⟩
  · cases hs
  · cases hs
  · cases hs
    exact ⟨h.value, h.slope, downhill_of_steepest rfl, fun _ => rfl⟩
  · cases hs
    apply move_steered
    apply (minimizeRay_coherent _ options).of_ok line hline

/-- What all steps keep. -/
theorem Visited.steered (h : Visited f grad x₀ options i s) :
  Steered f grad s
  := by
  induction h with
  | start => exact ⟨rfl, rfl, downhill_of_steepest rfl, fun _ => rfl⟩
  | next _ hstep ih => apply ih.next hstep

/-- A descent that gets stuck has searched along the steepest descent. -/
theorem Steered.stalls (h : Steered f grad s) (hstuck : Stuck f options s) :
  Stalls f grad options s.x
  := by
  obtain ⟨line, hline, hlost⟩ := hstuck.noProgress
  have hdirection : s.direction = -grad s.x := by
    rw [h.steepest hstuck.steepest, h.slope]
  have hray : along f s = fun t => f (s.x + -grad s.x * t) := by
    funext t
    rw [along, hdirection]
  rw [noProgress_iff, hdirection, h.value] at hlost
  rw [hray] at hline
  exact ⟨line, hline, hlost⟩

/-! ### The descent -/

/-- With exact scalars and roots, and a positive tolerance. In every state that a descent along
conjugate directions comes to, its value and its gradient are those at its point, its direction
leads downhill unless the gradient is zero, and a direction that counts as steepest is the opposite
of the gradient; and whenever the gradient is long enough for a line search, this one goes downhill.
A descent that announces a stall at the value `v` ends where the gradient has the length `v`, and
the steepest descent makes no progress from there. If a descent has a result, then the gradient is
shorter than the tolerance there, or it has not converged, and either it stalled or its budget is
spent. A minimization that converges does so where the gradient by differences is shorter than the
tolerance. -/
theorem minimum_steered (f : Vec α n → α) (grad : Vec α n → Vec α n) (x₀ : Vec α n)
    (options : Options α) (htol : 0 < options.tolerance) :
  (∀ i s, Visited f grad x₀ options i s →
      Steered f grad s
        ∧ (¬ s.slope.norm < options.tolerance → s.direction.dot s.slope < 0))
    ∧ (∀ k v, .descentStalled k v ∈ (minimum f grad x₀ options).events →
      ∃ x, (minimum f grad x₀ options).outcome = .ok ⟨x, f x, k, false⟩
        ∧ v = (grad x).norm ∧ options.tolerance ≤ v ∧ Stalls f grad options x)
    ∧ (∀ r, (minimum f grad x₀ options).outcome = .ok r →
      (r.converged = true → (grad r.x).norm < options.tolerance)
        ∧ (r.converged = false → Stalls f grad options r.x ∨ r.iterations = options.iterations))
    ∧ (∀ r, options.descent = .conjugateGradient → (minimize f x₀ options).outcome = .ok r →
      r.converged = true → (gradient f r.x options).norm < options.tolerance)
  := by
  refine ⟨?_, ?_, ?_, ?_⟩
  · intro i s hs
    use hs.steered
    intro hlong
    apply hs.steered.downhill
    apply Vec.ne_zero_of_norm htol hlong
  · intro k v hevent
    obtain ⟨i, s, hs, ⟨hi, hstep⟩ | ⟨-, hlast⟩⟩ := Run.exists_reached_event .start hevent
    · rw [Nat.zero_add] at hi
      obtain ⟨hstuck, rfl, rfl, hdone⟩ := stuck_of_event hstep
      have hsteered := Visited.steered hs
      refine ⟨s.x, ?_, ?_, not_lt.mp hstuck.long, hsteered.stalls hstuck⟩
      · rw [minimum, Run.outcome_iterate, hs.iterate_done hi hdone, hsteered.value]
      · rw [hsteered.slope]
    · cases hlast
  · intro r hr
    use minimum_converged hr
    intro hconverged
    obtain ⟨i, s, hs, ⟨-, hdone⟩ | ⟨-, hlast⟩⟩ := Run.exists_reached hr
    · left
      rcases step_eq_ok hdone with ⟨-, hr'⟩ | hr' | hr' | ⟨line, -, hr'⟩
      · cases hr'
        cases hconverged
      · have hstalls := (Visited.steered hs).stalls (stuck_of_not_converged hdone hconverged)
        cases hr'
        exact hstalls
      · cases hr'
      · cases hr'
    · right
      cases hlast
      rfl
  · intro r hdescent hr hconverged
    rw [minimize, Run.outcome_announce, minimizeWith, hdescent] at hr
    apply minimum_converged hr hconverged

/-- A parabola is minimized in one move, and a plateau with a slope that it does not have is left at
once, far from zero. -/
theorem minimum_steered_parabola_plateau :
  let options : Options ℝ := .standard (1 / 5)
  let f : Vec ℝ 1 → ℝ := fun x => x 0 * x 0 / 2
  let plateau : Vec ℝ 1 → ℝ := fun _ => 0
  let ramp : Vec ℝ 1 → Vec ℝ 1 := fun _ => Vec.fill 1
  0 < options.tolerance
    ∧ (∃ s, Visited f (fun x => x) (Vec.fill 1) options 1 s ∧ Steered f (fun x => x) s)
    ∧ (∃ r, (minimize f (Vec.fill 1) options).outcome = .ok r ∧ r.converged = true
      ∧ (gradient f r.x options).norm < options.tolerance)
    ∧ .descentStalled 1 1 ∈ (minimum plateau ramp (Vec.fill (2 ^ 60)) options).events
    ∧ ∃ x, (minimum plateau ramp (Vec.fill (2 ^ 60)) options).outcome = .ok ⟨x, 0, 1, false⟩
      ∧ Stalls plateau ramp options x
  := by
  intro options f plateau ramp
  have htol : 0 < options.tolerance := by
    show (0 : ℝ) < 1 / 5
    norm_num
  obtain ⟨hvisited, -, -, hconverged⟩ :=
    minimum_steered f (fun x => x) (Vec.fill 1) options htol
  obtain ⟨-, hstalled, -, -⟩ := minimum_steered plateau ramp (Vec.fill (2 ^ 60)) options htol
  have hmove : ∃ s, Visited f (fun x => x) (Vec.fill 1) options 1 s ∧ s.slope.norm < 1 / 5 := by
    obtain ⟨line, hline, hnear⟩ := minimizeRay_bowl 0 (q := 1 / 2) (by norm_num) htol.le
    replace hnear := abs_le.mp (hnear (by norm_num))
    have hray : along f (start f (fun x => x) (Vec.fill 1)) = bowl 0 (1 / 2) := by
      funext t
      simp only [along, start, bowl, f, Vec.get_add, Vec.get_mul, Vec.get_neg, Vec.get_fill]
      ring
    rw [← hray] at hline
    have hlong : ¬ (start f (fun x => x) (Vec.fill 1)).slope.norm < options.tolerance := by
      show ¬ (Vec.fill 1 : Vec ℝ 1).norm < 1 / 5
      rw [Vec.norm_single, Vec.get_fill]
      norm_num
    have hprogress : ¬ noProgress (start f (fun x => x) (Vec.fill 1))
        (-(Vec.fill 1 : Vec ℝ 1) * line.x) line.value = true := by
      rw [noProgress_iff]
      rintro ⟨hlost, -⟩
      rw [Vec.norm_single, Vec.norm_single] at hlost
      simp only [start, Vec.get_add, Vec.get_mul, Vec.get_neg, Vec.get_fill] at hlost
      have hstep : 854 / 1000 ≤ |(0 - 1) * line.x| := by
        rw [le_abs]
        right
        linarith
      have hlast : |1 + (0 - 1) * line.x| ≤ 146 / 1000 := by
        rw [abs_le]
        constructor <;> linarith
      have hepsilon : (epsilon : ℝ) = 1 / 2 ^ 52 := rfl
      rw [hepsilon] at hlost
      linarith
    have hvisited : Visited f (fun x => x) (Vec.fill 1) options 1 _ :=
      .next .start (step_of_progress hlong hline hprogress _ 0)
    refine ⟨_, hvisited, ?_⟩
    rw [slope_move, x_move, Vec.norm_single, Vec.get_add, abs_lt]
    simp only [start, Vec.get_mul, Vec.get_neg, Vec.get_fill]
    constructor <;> linarith
  have hends : ∃ r, (minimize f (Vec.fill 1) options).outcome = .ok r ∧ r.converged = true := by
    obtain ⟨s, hs, hshort⟩ := hmove
    have hgradient : (fun x => gradient f x options) = fun x => x := by
      funext x
      ext j
      obtain rfl := Subsingleton.elim 0 j
      have hspacing : options.spacing = 1 / 100 := by
        show (ratio 1 100 : ℝ) = _
        rw [ratio_eq]
        norm_num
      rw [gradient, Vec.get_ofFn]
      show partialQuotient f x 0 options.spacing = _
      rw [hspacing, partialQuotient]
      simp only [f, Vec.ahead, Vec.behind, Vec.get_set, if_true]
      ring
    have hdone : (step f (fun x => x) options 1 s).outcome
        = .ok (.done ⟨s.x, s.value, 1, true⟩) := by
      rw [step, if_pos (show s.slope.norm < options.tolerance from hshort)]
      rfl
    refine ⟨⟨s.x, s.value, 1, true⟩, ?_, rfl⟩
    rw [minimize, Run.outcome_announce, hgradient]
    show (minimum f (fun x => x) (Vec.fill 1) options).outcome = _
    rw [minimum, Run.outcome_iterate]
    exact Reached.iterate_done hs (by decide) hdone
  have hstuck : Stuck plateau options (start plateau ramp (Vec.fill (2 ^ 60))) := by
    obtain ⟨line, hline, hvalue, hlower, hupper⟩ := minimizeRay_const (0 : ℝ) htol.le
    refine ⟨?_, rfl, line, hline, ?_⟩
    · show ¬ (Vec.fill 1 : Vec ℝ 1).norm < 1 / 5
      rw [Vec.norm_single, Vec.get_fill]
      norm_num
    · rw [noProgress_iff]
      refine ⟨?_, hvalue.ge⟩
      have hepsilon : (epsilon : ℝ) = 1 / 2 ^ 52 := rfl
      have hfar : 2 ^ 60 - 1 ≤ |(2 ^ 60 : ℝ) + (0 - 1) * line.x| := by
        rw [le_abs]
        left
        linarith
      have hstep : |(0 - 1) * line.x| ≤ 1 := by
        rw [abs_le]
        constructor <;> linarith
      rw [Vec.norm_single, Vec.norm_single, hepsilon]
      simp only [start, ramp, Vec.get_add, Vec.get_mul, Vec.get_neg, Vec.get_fill]
      calc |(0 - 1) * line.x| ≤ 1 / 2 ^ 52 * (1 + (2 ^ 60 - 1)) := by
            apply hstep.trans
            norm_num
        _ ≤ 1 / 2 ^ 52 * (1 + |2 ^ 60 + (0 - 1) * line.x|) := by gcongr
  have hevent :
      .descentStalled 1 1 ∈ (minimum plateau ramp (Vec.fill (2 ^ 60)) options).events := by
    have hfirst := hstuck.mem_events ramp 0
    have hnorm : (start plateau ramp (Vec.fill (2 ^ 60))).slope.norm = 1 := by
      show (Vec.fill 1 : Vec ℝ 1).norm = 1
      rw [Vec.norm_single, Vec.get_fill, abs_one]
    rw [hnorm] at hfirst
    have hbudget : options.iterations = 999 + 1 := rfl
    rw [minimum, hbudget, iterate_succ, Run.mem_events_bind]
    left
    exact hfirst
  obtain ⟨s, hs, -⟩ := hmove
  obtain ⟨r, hr, hr'⟩ := hends
  obtain ⟨x, hx, -, -, hstalls⟩ := hstalled 1 1 hevent
  exact ⟨htol, ⟨s, hs, (hvisited 1 s hs).1⟩, ⟨r, hr, hr', hconverged r rfl hr hr'⟩, hevent, x, hx,
    hstalls⟩

end ConjugateGradient

end Numerics
