import Mathlib.Tactic.Use
import Numerics.Index

/-!
# Steps that may fail

A computation in `Except` that goes on after another one succeeds where both do, and fails where one
of them does: `bind_eq_ok` and `bind_eq_error`.

A method that takes one step for each index, and stops at the first step that fails, keeps what its
steps keep, by `steps_induction`, and fails in the ways of its steps only, by `steps_error`. A user
who does one operation after the other, `performAll`, goes on from an operation that fails as if it
had not been tried. So the state in the end is that after the operations that succeed, `performed`.

A part of the state may be `Unread`: some operations write it, and none looks at it. Then it makes
no difference to what becomes of the operations, `outcomes`, nor to the state from the first
operation on that succeeds in writing it.
-/

namespace Numerics

variable {σ β γ ω ε : Type}

/-! ### One after the other -/

theorem bind_eq_ok {x : Except ε β} {f : β → Except ε γ} {c : γ} :
  x >>= f = .ok c ↔ ∃ b, x = .ok b ∧ f b = .ok c
  := by
  constructor
  · intro h
    cases x with
    | error e => cases h
    | ok b => use b, rfl, h
  · rintro ⟨b, rfl, h⟩
    exact h

theorem bind_eq_error {x : Except ε β} {f : β → Except ε γ} {e : ε} :
  x >>= f = .error e ↔ x = .error e ∨ ∃ b, x = .ok b ∧ f b = .error e
  := by
  constructor
  · intro h
    cases x with
    | error e' =>
      left
      cases h
      rfl
    | ok b =>
      right
      use b, rfl, h
  · rintro (rfl | ⟨b, rfl, h⟩)
    · rfl
    · exact h

/-- A computation that fails in one way only fails in it if it does not succeed. -/
theorem eq_error_iff {x : Except ε β} {e : ε} (h : ∀ e', x = .error e' → e' = e) :
  x = .error e ↔ ¬ ∃ b, x = .ok b
  := by
  constructor
  · rintro rfl ⟨b, hb⟩
    cases hb
  · intro hx
    cases hx' : x with
    | ok b => exact absurd ⟨b, hx'⟩ hx
    | error e' => rw [h e' hx']

theorem exists_of_isOk {x : Except ε β} (h : x.isOk = true) :
  ∃ b, x = .ok b
  := by
  cases x with
  | error e => cases h
  | ok b => use b

/-- A computation whose result can be seen to satisfy `P` succeeds. -/
theorem exists_of_any {x : Except ε β} {P : β → Prop} [DecidablePred P]
    (h : (x.toOption.any fun b => decide (P b)) = true) :
  ∃ b, x = .ok b ∧ P b
  := by
  cases x with
  | error e => cases h
  | ok b => use b, rfl, of_decide_eq_true h

/-! ### One step for each index -/

section

variable {n : Nat} {step : σ → Fin n → Except ε σ} {run : (k : Nat) → k ≤ n → Except ε σ} {s : σ}

/-- A property `P k` of the state after `k` steps holds after a run that succeeds, if it holds at
the start and every step that succeeds keeps it. -/
theorem steps_induction {P : Nat → σ → Prop} (zero : ∀ h, run 0 h = .ok s)
    (succ : ∀ k h, run (k + 1) h = run k (Nat.le_of_succ_le h) >>= fun u => step u ⟨k, h⟩)
    (start : P 0 s) (next : ∀ k u u', P k.val u → step u k = .ok u' → P (k.val + 1) u')
    (k : Nat) (h : k ≤ n) :
  ∀ s', run k h = .ok s' → P k s'
  := by
  induction k with
  | zero =>
    intro s' hs
    obtain rfl := Except.ok.inj ((zero h).symm.trans hs)
    exact start
  | succ k ih =>
    intro s' hs
    rw [succ, bind_eq_ok] at hs
    obtain ⟨u, hu, hs⟩ := hs
    apply next ⟨k, h⟩ u s' (ih _ u hu) hs

/-- A property of the state after `k` steps still holds after `m` steps, if every step from the one
at `k` on that succeeds keeps it. -/
theorem steps_induction_from {P : σ → Prop} {k : Nat} {hk : k ≤ n} {u : σ}
    (succ : ∀ k h, run (k + 1) h = run k (Nat.le_of_succ_le h) >>= fun u => step u ⟨k, h⟩)
    (hu : run k hk = .ok u) (start : P u)
    (next : ∀ j u u', k ≤ j.val → P u → step u j = .ok u' → P u') (m : Nat) (hm : m ≤ n)
    (hkm : k ≤ m) :
  ∀ s', run m hm = .ok s' → P s'
  := by
  induction hkm with
  | refl =>
    intro s' hs
    obtain rfl := Except.ok.inj (hu.symm.trans hs)
    exact start
  | @step m hkm ih =>
    intro s' hs
    rw [succ, bind_eq_ok] at hs
    obtain ⟨u, hu, hs⟩ := hs
    apply next ⟨m, hm⟩ u s' hkm (ih _ u hu) hs

/-- A run that succeeds comes to each of its steps, and the step succeeds. -/
theorem steps_eq_ok (succ : ∀ k h, run (k + 1) h
      = run k (Nat.le_of_succ_le h) >>= fun u => step u ⟨k, h⟩)
    (k : Nat) (h : k ≤ n) {s' : σ} (hs : run k h = .ok s') (j : Fin n) (hj : j.val < k) :
  ∃ u u', run j.val (Nat.le_of_lt j.isLt) = .ok u ∧ step u j = .ok u'
  := by
  induction k generalizing s' with
  | zero => exact absurd hj (Nat.not_lt_zero _)
  | succ k ih =>
    rw [succ, bind_eq_ok] at hs
    obtain ⟨u, hu, hs⟩ := hs
    rcases Nat.lt_succ_iff_lt_or_eq.mp hj with hj | hj
    · apply ih _ hu hj
    · obtain rfl : j = ⟨k, h⟩ := Fin.ext hj
      use u, s', hu

/-- A run fails exactly if a step fails that it comes to, and in the same way. -/
theorem steps_eq_error_iff (zero : ∀ h, run 0 h = .ok s)
    (succ : ∀ k h, run (k + 1) h = run k (Nat.le_of_succ_le h) >>= fun u => step u ⟨k, h⟩)
    {e : ε} (k : Nat) (h : k ≤ n) :
  run k h = .error e
    ↔ ∃ j : Fin n, j.val < k ∧ ∃ u, run j.val (Nat.le_of_lt j.isLt) = .ok u ∧ step u j = .error e
  := by
  induction k with
  | zero =>
    rw [zero]
    constructor
    · intro hs
      cases hs
    · rintro ⟨j, hj, -⟩
      exact absurd hj (Nat.not_lt_zero _)
  | succ k ih =>
    rw [succ, bind_eq_error, ih]
    constructor
    · rintro (⟨j, hj, hu⟩ | hu)
      · use j, Nat.lt_succ_of_lt hj
      · use ⟨k, h⟩, Nat.lt_succ_self k
    · rintro ⟨j, hj, hu⟩
      rcases Nat.lt_succ_iff_lt_or_eq.mp hj with hj | hj
      · left
        use j, hj
      · right
        obtain rfl : j = ⟨k, h⟩ := Fin.ext hj
        exact hu

/-- A run fails in the way in which one of its steps does. -/
theorem steps_error (zero : ∀ h, run 0 h = .ok s)
    (succ : ∀ k h, run (k + 1) h = run k (Nat.le_of_succ_le h) >>= fun u => step u ⟨k, h⟩)
    {e : ε} (k : Nat) (h : k ≤ n) (hs : run k h = .error e) :
  ∃ j u, step u j = .error e
  := by
  obtain ⟨j, -, u, -, hu⟩ := (steps_eq_error_iff zero succ k h).mp hs
  use j, u

end

/-! ### One operation after the other -/

/-- The state after the operation `op`, which is `s` if the operation fails. -/
def attempt (perform : σ → ω → Except ε σ) (s : σ) (op : ω) : σ :=
  match perform s op with
  | .ok s' => s'
  | .error _ => s

theorem attempt_of_ok {perform : σ → ω → Except ε σ} {s s' : σ} {op : ω}
    (h : perform s op = .ok s') :
  attempt perform s op = s'
  := by
  rw [attempt, h]

theorem attempt_of_error {perform : σ → ω → Except ε σ} {s : σ} {op : ω} {e : ε}
    (h : perform s op = .error e) :
  attempt perform s op = s
  := by
  rw [attempt, h]

/-- The state after the operations `ops`, in order. -/
def performAll (perform : σ → ω → Except ε σ) (s : σ) (ops : List ω) : σ :=
  ops.foldl (attempt perform) s

/-- A property `P` holds after operations that satisfy `A`, if it holds at the start and every
such operation that succeeds keeps it. -/
theorem performAll_induction {perform : σ → ω → Except ε σ} {P : σ → Prop} {A : ω → Prop}
    (next : ∀ s op s', P s → A op → perform s op = .ok s' → P s') (ops : List ω) :
  ∀ s, P s → (∀ op ∈ ops, A op) → P (performAll perform s ops)
  := by
  induction ops with
  | nil =>
    intro s hs _
    exact hs
  | cons op ops ih =>
    intro s hs hops
    apply ih
    · rw [attempt]
      cases h : perform s op with
      | ok s' => apply next s op s' hs (hops op List.mem_cons_self) h
      | error e => exact hs
    · intro op' hop'
      apply hops op' (List.mem_cons_of_mem op hop')

/-- An operation that gives the same after any of the operations `ops` that succeeds as before it
gives the same after attempts at all of them. -/
theorem perform_performAll (perform : σ → ω → Except ε σ) (op : ω) {ops : List ω}
    (h : ∀ op' ∈ ops, ∀ s s', perform s op' = .ok s' → perform s' op = perform s op) (s : σ) :
  perform (performAll perform s ops) op = perform s op
  := by
  induction ops generalizing s with
  | nil => rfl
  | cons op' ops ih =>
    apply Eq.trans (ih (fun op'' hop'' => h op'' (List.mem_cons_of_mem op' hop'')) _)
    cases hs : perform s op' with
    | ok s' => rw [attempt_of_ok hs, h op' List.mem_cons_self s s' hs]
    | error e => rw [attempt_of_error hs]

/-- Those of the operations `ops` that succeed when all of them are tried in order. -/
def performed (perform : σ → ω → Except ε σ) (s : σ) : List ω → List ω
  | [] => []
  | op :: ops =>
    match perform s op with
    | .ok s' => op :: performed perform s' ops
    | .error _ => performed perform s ops

section

variable {perform : σ → ω → Except ε σ} {s s' : σ} {op : ω} {e : ε}

theorem performAll_cons_of_ok (h : perform s op = .ok s') (ops : List ω) :
  performAll perform s (op :: ops) = performAll perform s' ops
  := by
  rw [performAll, List.foldl_cons, attempt_of_ok h]
  rfl

theorem performAll_cons_of_error (h : perform s op = .error e) (ops : List ω) :
  performAll perform s (op :: ops) = performAll perform s ops
  := by
  rw [performAll, List.foldl_cons, attempt_of_error h]
  rfl

theorem performed_cons_of_ok (h : perform s op = .ok s') (ops : List ω) :
  performed perform s (op :: ops) = op :: performed perform s' ops
  := by
  rw [performed, h]

theorem performed_cons_of_error (h : perform s op = .error e) (ops : List ω) :
  performed perform s (op :: ops) = performed perform s ops
  := by
  rw [performed, h]

/-- What succeeds is the first operation, if it does, and what succeeds after an attempt at it. -/
theorem mem_performed_cons {op' : ω} {ops : List ω} :
  op' ∈ performed perform s (op :: ops)
    ↔ (op' = op ∧ ∃ s', perform s op = .ok s') ∨ op' ∈ performed perform (attempt perform s op) ops
  := by
  cases h : perform s op with
  | ok s' =>
    rw [performed_cons_of_ok h, attempt_of_ok h, List.mem_cons]
    simp
  | error e =>
    rw [performed_cons_of_error h, attempt_of_error h]
    simp

theorem performAll_append (before after : List ω) :
  performAll perform s (before ++ after) = performAll perform (performAll perform s before) after
  := List.foldl_append

theorem performed_append (before after : List ω) :
  performed perform s (before ++ after)
    = performed perform s before ++ performed perform (performAll perform s before) after
  := by
  induction before generalizing s with
  | nil => rfl
  | cons op before ih =>
    rw [List.cons_append]
    cases h : perform s op with
    | ok s' =>
      rw [performed_cons_of_ok h, performed_cons_of_ok h, performAll_cons_of_ok h, ih,
        List.cons_append]
    | error e =>
      rw [performed_cons_of_error h, performed_cons_of_error h, performAll_cons_of_error h, ih]

/-- An operation that fails makes no difference to those after it. -/
theorem performAll_append_of_error (perform : σ → ω → Except ε σ) (s : σ) {before : List ω} {op : ω}
    (h : perform (performAll perform s before) op = .error e) (after : List ω) :
  performAll perform s (before ++ op :: after) = performAll perform s (before ++ after)
    ∧ performed perform s (before ++ op :: after) = performed perform s (before ++ after)
  := by
  constructor
  · rw [performAll_append, performAll_append, performAll_cons_of_error h]
  · rw [performed_append, performed_append, performed_cons_of_error h]

/-- The operations that succeed lead to the state in the end without a failure. -/
theorem foldlM_performed (ops : List ω) :
  (performed perform s ops).foldlM perform s = .ok (performAll perform s ops)
  := by
  induction ops generalizing s with
  | nil => rfl
  | cons op ops ih =>
    cases h : perform s op with
    | ok s' =>
      rw [performed_cons_of_ok h, performAll_cons_of_ok h, List.foldlM_cons, h]
      exact ih
    | error e =>
      rw [performed_cons_of_error h, performAll_cons_of_error h]
      exact ih

/-- Where no operation fails, all of them succeed. -/
theorem performed_of_foldlM {ops : List ω} (h : ops.foldlM perform s = .ok s') :
  performed perform s ops = ops ∧ performAll perform s ops = s'
  := by
  induction ops generalizing s with
  | nil =>
    cases h
    use rfl
    rfl
  | cons op ops ih =>
    rw [List.foldlM_cons] at h
    obtain ⟨u, hu, h⟩ := bind_eq_ok.mp h
    obtain ⟨hall, hstate⟩ := ih h
    rw [performed_cons_of_ok hu, performAll_cons_of_ok hu, hall]
    use rfl

end

/-! ### Parts that are never read -/

/-- What becomes of each of the operations `ops` when they are tried in order: that it succeeds, or
how it fails. -/
def outcomes (perform : σ → ω → Except ε σ) (s : σ) : List ω → List (Except ε Unit)
  | [] => []
  | op :: ops => (perform s op).map (fun _ => ()) :: outcomes perform (attempt perform s op) ops

/-- No operation reads the part of a state that `put` writes. Those that satisfy `Writes` write it
anew, and the others carry it along. -/
structure Unread {κ : Type} (perform : σ → ω → Except ε σ) (put : κ → σ → σ)
    (Writes : ω → Prop) : Prop where
  written : ∀ s k op, Writes op → perform (put k s) op = perform s op
  carried : ∀ s k op, ¬ Writes op → perform (put k s) op = (perform s op).map (put k)

namespace Unread

variable {κ : Type} {perform : σ → ω → Except ε σ} {put : κ → σ → σ} {Writes : ω → Prop}

theorem outcome_put (h : Unread perform put Writes) (s : σ) (k : κ) (op : ω) :
  (perform (put k s) op).map (fun _ => ()) = (perform s op).map fun _ => ()
  := by
  by_cases hop : Writes op
  · rw [h.written s k op hop]
  · rw [h.carried s k op hop]
    cases perform s op <;> rfl

/-- After an attempt that writes the part, it does not matter what the part was. -/
theorem attempt_put_of_written (h : Unread perform put Writes) {s : σ} {op : ω}
    (hop : (∃ s', perform s op = .ok s') ∧ Writes op) (k : κ) :
  attempt perform (put k s) op = attempt perform s op
  := by
  obtain ⟨⟨s', hs⟩, hop⟩ := hop
  rw [attempt_of_ok hs, attempt_of_ok ((h.written s k op hop).trans hs)]

/-- An attempt that fails or does not write the part carries it along. -/
theorem attempt_put_of_carried (h : Unread perform put Writes) {s : σ} {op : ω}
    (hop : ¬ ((∃ s', perform s op = .ok s') ∧ Writes op)) (k : κ) :
  attempt perform (put k s) op = put k (attempt perform s op)
  := by
  cases hs : perform s op with
  | ok s' =>
    have hcarried := h.carried s k op fun hwrites => hop ⟨⟨s', hs⟩, hwrites⟩
    rw [attempt, hcarried, attempt_of_ok hs, hs]
    rfl
  | error e =>
    have hfails := h.outcome_put s k op
    rw [hs] at hfails
    cases hput : perform (put k s) op with
    | ok s' =>
      rw [hput] at hfails
      cases hfails
    | error e' => rw [attempt_of_error hs, attempt_of_error hput]

/-- The part makes no difference to what becomes of the operations. -/
theorem outcomes_put (h : Unread perform put Writes) (s : σ) (k : κ) (ops : List ω) :
  outcomes perform (put k s) ops = outcomes perform s ops
  := by
  induction ops generalizing s with
  | nil => rfl
  | cons op ops ih =>
    rw [outcomes, outcomes, h.outcome_put]
    by_cases hop : (∃ s', perform s op = .ok s') ∧ Writes op
    · rw [h.attempt_put_of_written hop]
    · rw [h.attempt_put_of_carried hop, ih]

/-- Until an operation writes the part, it is carried along. -/
theorem performAll_put_of_carried (h : Unread perform put Writes) {s : σ} {ops : List ω}
    (hops : ∀ op ∈ performed perform s ops, ¬ Writes op) (k : κ) :
  performAll perform (put k s) ops = put k (performAll perform s ops)
  := by
  induction ops generalizing s with
  | nil => rfl
  | cons op ops ih =>
    have hop : ¬ ((∃ s', perform s op = .ok s') ∧ Writes op) := by
      rintro ⟨hs, hwrites⟩
      exact hops op (mem_performed_cons.mpr (.inl ⟨rfl, hs⟩)) hwrites
    rw [performAll, List.foldl_cons, h.attempt_put_of_carried hop]
    apply ih
    intro op' hop'
    exact hops op' (mem_performed_cons.mpr (.inr hop'))

/-- After an operation that writes the part, it does not matter what the part was. -/
theorem performAll_put_of_written (h : Unread perform put Writes) {s : σ} {ops : List ω}
    (hops : ∃ op ∈ performed perform s ops, Writes op) (k : κ) :
  performAll perform (put k s) ops = performAll perform s ops
  := by
  induction ops generalizing s with
  | nil =>
    obtain ⟨op, hop, -⟩ := hops
    cases hop
  | cons op ops ih =>
    rw [performAll, performAll, List.foldl_cons, List.foldl_cons]
    by_cases hop : (∃ s', perform s op = .ok s') ∧ Writes op
    · rw [h.attempt_put_of_written hop]
    · rw [h.attempt_put_of_carried hop]
      apply ih
      obtain ⟨op', hop', hwrites⟩ := hops
      rcases mem_performed_cons.mp hop' with ⟨rfl, hs⟩ | hop'
      · exact absurd ⟨hs, hwrites⟩ hop
      · use op'

end Unread

end Numerics
