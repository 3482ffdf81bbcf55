/-!
# Folds over indices

Sums and substitutions run over the indices below `n`, or over those on one side of a given index:
`foldBelow i` visits the indices less than `i` and `foldAbove i` those greater than `i`, each in
increasing order. A fold is understood through an invariant that is indexed by the number of
indices passed; `foldl_induction`, `foldBelow_induction` and `foldAbove_induction` are forms of that
principle, and `foldr_induction` is the one for the fold that starts from the last index. A map that
takes the steps of one fold to those of another takes the end of the one to the end of the other, by
`foldl_hom`, `foldr_hom`, `foldBelow_hom` and `foldAbove_hom`.
-/

namespace Numerics

universe u v

variable {β : Type u} {n : Nat}

/-- The fold of `f` over the indices less than `i`. -/
def foldBelow (i : Fin n) (f : β → Fin n → β) (b : β) : β :=
  Fin.foldl i.val (fun acc k => f acc ⟨k.val, Nat.lt_trans k.isLt i.isLt⟩) b

/-- The fold of `f` over the indices greater than `i`. -/
def foldAbove (i : Fin n) (f : β → Fin n → β) (b : β) : β :=
  Fin.foldl (n - (i.val + 1)) (fun acc k => f acc ⟨i.val + 1 + k.val, by omega⟩) b

/-- A property `P k` of the state after `k` indices holds after all of them, if it holds at the
start and every index keeps it. -/
theorem foldl_induction {P : Nat → β → Prop} {f : β → Fin n → β} {b : β}
    (start : P 0 b) (next : ∀ (k : Fin n) (c : β), P k.val c → P (k.val + 1) (f c k)) :
  P n (Fin.foldl n f b)
  := by
  induction n with
  | zero =>
    rw [Fin.foldl_zero]
    exact start
  | succ n ih =>
    rw [Fin.foldl_succ_last]
    apply next (Fin.last n)
    apply ih
    intro k c
    apply next k.castSucc

theorem foldl_hom {γ : Type v} (φ : β → γ) {f : β → Fin n → β} {g : γ → Fin n → γ} {b : β}
    (h : ∀ (c : β) (k : Fin n), φ (f c k) = g (φ c) k) :
  φ (Fin.foldl n f b) = Fin.foldl n g (φ b)
  := by
  induction n with
  | zero => rw [Fin.foldl_zero, Fin.foldl_zero]
  | succ n ih =>
    rw [Fin.foldl_succ_last, Fin.foldl_succ_last, h]
    congr 1
    apply ih
    intro c k
    apply h c k.castSucc

theorem foldr_hom {γ : Type v} (φ : β → γ) {f : Fin n → β → β} {g : Fin n → γ → γ} {b : β}
    (h : ∀ (k : Fin n) (c : β), φ (f k c) = g k (φ c)) :
  φ (Fin.foldr n f b) = Fin.foldr n g (φ b)
  := by
  induction n with
  | zero => rw [Fin.foldr_zero, Fin.foldr_zero]
  | succ n ih =>
    rw [Fin.foldr_succ, Fin.foldr_succ, h]
    congr 1
    apply ih
    intro k c
    apply h k.succ c

/-- A property `P k` of the state after the indices from `k` on holds for `k = 0` after all of them,
if it holds at the start and every index keeps it. -/
theorem foldr_induction {P : Nat → β → Prop} {f : Fin n → β → β} {b : β}
    (start : P n b) (next : ∀ (k : Fin n) (c : β), P (k.val + 1) c → P k.val (f k c)) :
  P 0 (Fin.foldr n f b)
  := by
  induction n generalizing P with
  | zero =>
    rw [Fin.foldr_zero]
    exact start
  | succ n ih =>
    rw [Fin.foldr_succ]
    apply next 0
    apply ih (P := fun k => P (k + 1)) start
    intro k c
    apply next k.succ

/-- A property `P k` of the state after the indices less than `k` holds for `k = i` after the fold
below `i`, if it holds at the start and every index less than `i` keeps it. -/
theorem foldBelow_induction {P : Nat → β → Prop} {i : Fin n} {f : β → Fin n → β} {b : β}
    (start : P 0 b) (next : ∀ (k : Fin n) (c : β), k < i → P k.val c → P (k.val + 1) (f c k)) :
  P i.val (foldBelow i f b)
  := by
  apply foldl_induction start
  intro k c
  apply next ⟨k.val, _⟩ c k.isLt

/-- Only the steps at the indices less than `i` matter to a fold below `i`. -/
theorem foldBelow_congr {i : Fin n} {f g : β → Fin n → β} {b : β}
    (h : ∀ (c : β) (k : Fin n), k < i → f c k = g c k) :
  foldBelow i f b = foldBelow i g b
  := by
  rw [foldBelow, foldBelow]
  congr 1
  funext c k
  apply h c ⟨k.val, _⟩ k.isLt

theorem foldBelow_hom {γ : Type v} (φ : β → γ) {i : Fin n} {f : β → Fin n → β} {g : γ → Fin n → γ}
    {b : β} (h : ∀ (c : β) (k : Fin n), φ (f c k) = g (φ c) k) :
  φ (foldBelow i f b) = foldBelow i g (φ b)
  := foldl_hom φ fun c k => h c ⟨k.val, _⟩

theorem foldAbove_hom {γ : Type v} (φ : β → γ) {i : Fin n} {f : β → Fin n → β} {g : γ → Fin n → γ}
    {b : β} (h : ∀ (c : β) (k : Fin n), φ (f c k) = g (φ c) k) :
  φ (foldAbove i f b) = foldAbove i g (φ b)
  := foldl_hom φ fun c k => h c ⟨i.val + 1 + k.val, _⟩

/-- A property `P k` of the state after the indices less than `k` holds for `k = n` after the fold
above `i`, if it holds for `k = i + 1` at the start and every index greater than `i` keeps it. -/
theorem foldAbove_induction {P : Nat → β → Prop} {i : Fin n} {f : β → Fin n → β} {b : β}
    (start : P (i.val + 1) b)
    (next : ∀ (k : Fin n) (c : β), i < k → P k.val c → P (k.val + 1) (f c k)) :
  P n (foldAbove i f b)
  := by
  have h : P (i.val + 1 + (n - (i.val + 1))) (foldAbove i f b) := by
    apply foldl_induction (P := fun k => P (i.val + 1 + k)) start
    intro k c
    apply next ⟨i.val + 1 + k.val, _⟩ c
    show i.val < i.val + 1 + k.val
    omega
  rw [Nat.add_sub_cancel' i.isLt] at h
  exact h

end Numerics
