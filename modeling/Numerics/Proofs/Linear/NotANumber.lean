import Mathlib.Algebra.Order.Field.Basic
import Numerics.Proofs.Linear.Divisors
import Numerics.Proofs.Linear.Symmetric

/-!
# Symmetric factorisation and scalars that are not numbers

A scalar that is not a number may hide from the symmetric factorisation for some time. The floor is
found without it, since `maxNum` passes over it, and a column is computed from it without a test.
But what it enters is not a number either, and each entry of the factor enters the pivot of its row.
No comparison holds for such a pivot, so the factorisation fails when it comes to that row, at the
latest. This is `factor_stops_nan`: a factor that is found consists of numbers, and so does what was
read of the matrix.

The divisors are the diagonal entries of the factor. They are roots of what exceeds the floor, so
none of them is zero where that is positive.
-/

namespace Numerics

variable {α : Type} {n : Nat}

/-- What is found from a scalar that is not a number by a subtraction, multiplication or division is
not a number, and such a scalar is not less or greater than any. Nothing is said about roots, nor
about `maxNum`, which may pass over it. -/
class AbsorbingNaN (α : Type) [RealScalar α] : Prop where
  numbers_of_lt : ∀ a b : α, a < b → IsNumber a ∧ IsNumber b
  numbers_of_sub : ∀ a b : α, IsNumber (a - b) → IsNumber a ∧ IsNumber b
  numbers_of_mul : ∀ a b : α, IsNumber (a * b) → IsNumber a ∧ IsNumber b
  numbers_of_div : ∀ a b : α, IsNumber (a / b) → IsNumber a ∧ IsNumber b

theorem QuietNaN.absorbing [RealScalar α] [QuietNaN α]
    (h : ∀ a b : α, IsNumber (a / b) → IsNumber a ∧ IsNumber b) :
  AbsorbingNaN α
  := ⟨numbers_of_lt, numbers_of_sub, numbers_of_mul, h⟩

instance absorbingNaN_exact [ExactScalar α] : AbsorbingNaN α :=
  QuietNaN.absorbing fun a b _ => ⟨isNumber_exact a, isNumber_exact b⟩

instance absorbingNaN_double : AbsorbingNaN Float :=
  QuietNaN.absorbing fun _ _ => dividedAs_double.numbers_of_div

instance absorbingNaN_single : AbsorbingNaN Float32 :=
  QuietNaN.absorbing fun _ _ => dividedAs_single.numbers_of_div

namespace Linear.Cholesky

variable [RealScalar α] {a l l' : Mat α n n} {bound : α} {c : Cholesky α n}

/-! ### Columns -/

theorem pivot_setCol {j k : Fin n} (hj : j ≤ k) (a l : Mat α n n) (v : Vec α n) :
  pivot a (l.setCol k v) j = pivot a l j
  := by
  apply foldBelow_congr
  intro d m hm
  rw [Mat.get_setCol, if_neg (hm.trans_le hj).ne']

theorem column_setCol {j k : Fin n} (hj : j ≤ k) (a l : Mat α n n) (v : Vec α n) (diag : α) :
  column a (l.setCol k v) j diag = column a l j diag
  := by
  ext i
  rw [get_column, get_column]
  split_ifs
  · rfl
  · rfl
  · congr 1
    apply foldBelow_congr
    intro d m hm
    rw [Mat.get_setCol, Mat.get_setCol, if_neg (hm.trans_le hj).ne', if_neg (hm.trans_le hj).ne']

/-- The first `k` columns of `l` are those that the factorisation of `a` finds, given the columns
before them, and their pivots exceed the bound. -/
structure Computed (a : Mat α n n) (bound : α) (k : Nat) (l : Mat α n n) : Prop where
  pivots : ∀ j, j.val < k → bound < pivot a l j
  columns : ∀ i j, j.val < k → l i j = column a l j (sqrt (pivot a l j)) i

/-- A step keeps the columns before, and finds its own. -/
theorem Computed.step {k : Fin n} (h : Computed a bound k l) (hl : step a bound l k = .ok l') :
  Computed a bound (k.val + 1) l'
  := by
  obtain ⟨hpivot, rfl⟩ := step_eq_ok hl
  constructor
  · intro j hj
    rw [pivot_setCol (Nat.le_of_lt_succ hj)]
    rcases Nat.lt_succ_iff_lt_or_eq.mp hj with hj | hj
    · apply h.pivots j hj
    · rw [Fin.ext hj]
      exact hpivot
  · intro i j hj
    rw [pivot_setCol (Nat.le_of_lt_succ hj), column_setCol (Nat.le_of_lt_succ hj), Mat.get_setCol]
    rcases Nat.lt_succ_iff_lt_or_eq.mp hj with hj | hj
    · have hne : k ≠ j := fun hkj => hj.ne' (congrArg Fin.val hkj)
      rw [if_neg hne]
      apply h.columns i j hj
    · obtain rfl := Fin.ext hj
      rw [if_pos rfl]

theorem computed_steps {k : Nat} {hk : k ≤ n} (h : steps a bound k hk = .ok l) :
  Computed a bound k l
  := by
  apply steps_induction (fun _ => rfl) (fun _ _ => rfl) _ _ k hk l h
  · constructor
    · intro j hj
      exact absurd hj (Nat.not_lt_zero _)
    · intro i j hj
      exact absurd hj (Nat.not_lt_zero _)
  · intro k u u' hu hstep
    apply hu.step hstep

theorem computed_factor (h : factor a = .ok c) :
  Computed a (floor a) n c.lower
  := computed_steps (factor_eq_ok_iff.mp h)

/-- A run that goes on keeps the columns that it has found. -/
theorem get_steps_of_lt {k m : Nat} {hk : k ≤ n} {hm : m ≤ n} (hkm : k ≤ m)
    (h : steps a bound k hk = .ok l) (h' : steps a bound m hm = .ok l') (i j : Fin n)
    (hj : j.val < k) :
  l' i j = l i j
  := by
  apply steps_induction_from (P := fun u => u i j = l i j) (fun _ _ => rfl) h rfl _ m hm hkm l' h'
  intro r u u' hr hu hstep
  obtain ⟨-, rfl⟩ := step_eq_ok hstep
  have hne : r ≠ j := fun hrj => (hj.trans_le hr).ne' (congrArg Fin.val hrj)
  rw [Mat.get_setCol, if_neg hne, hu]

/-! ### Numbers -/

section

variable [AbsorbingNaN α]

theorem numbers_of_foldBelow {i : Fin n} {x : α} {f g : Fin n → α}
    (h : IsNumber (foldBelow i (fun s k => s - f k * g k) x)) :
  IsNumber x ∧ ∀ k, k < i → IsNumber (f k)
  := by
  apply foldBelow_backward _ h
  intro s k hs
  obtain ⟨hs, hproduct⟩ := AbsorbingNaN.numbers_of_sub _ _ hs
  exact ⟨hs, (AbsorbingNaN.numbers_of_mul _ _ hproduct).1⟩

/-- A pivot that exceeds the bound vouches for the entries of its row of the factor before it. -/
theorem Computed.number_of_lt {k : Nat} (h : Computed a bound k l) {i j : Fin n} (hi : i.val < k)
    (hj : j < i) :
  IsNumber (l i j)
  := by
  have hpivot := AbsorbingNaN.numbers_of_lt _ _ (h.pivots i hi)
  exact (numbers_of_foldBelow hpivot.2).2 j hj

/-- The entries of the factor vouch for those of the matrix that they are found from. -/
theorem Computed.number_of_le {k : Nat} (h : Computed a bound k l) {i j : Fin n} (hi : i.val < k)
    (hj : j ≤ i) :
  IsNumber (a i j)
  := by
  rcases hj.eq_or_lt with rfl | hj
  · have hpivot := AbsorbingNaN.numbers_of_lt _ _ (h.pivots j hi)
    exact (numbers_of_foldBelow hpivot.2).1
  · have hentry := h.number_of_lt hi hj
    rw [h.columns i j (lt_trans hj hi), get_column, if_neg hj.not_gt, if_neg hj.ne'] at hentry
    have hquotient := AbsorbingNaN.numbers_of_div _ _ hentry
    exact (numbers_of_foldBelow hquotient.1).1

end

/-! ### Divisors -/

/-- The factor `c` of guarded scalars. -/
def guarded (c : Cholesky α n) : Cholesky (Guarded α) n where
  lower := c.lower.guarded

theorem solve_guarded (hc : ∀ i, ¬ IsZero (c.lower i i)) (b : Vec α n) :
  c.guarded.solve b.guarded = (c.solve b).guarded
  := by
  have hupper : ∀ i, ¬ IsZero (c.lower.transpose i i) := by
    intro i
    rw [Mat.get_transpose]
    apply hc
  show solveUpper c.lower.guarded.transpose (solveLower c.lower.guarded b.guarded) = _
  rw [solveLower_guarded hc, Mat.transpose_guarded, solveUpper_guarded hupper]
  rfl

theorem inverse_guarded (hc : ∀ i, ¬ IsZero (c.lower i i)) :
  c.guarded.inverse = c.inverse.guarded
  := Mat.ofCols_axis_guarded (solve_guarded hc)

theorem Computed.diagonal_eq {k : Nat} (h : Computed a bound k l) {j : Fin n} (hj : j.val < k) :
  l j j = sqrt (pivot a l j)
  := by
  rw [h.columns j j hj, column_self]

/-- The entries of a factor are numbers, where what exceeds the bound is positive. -/
theorem Computed.number [AbsorbingNaN α] [PositiveRoots α] (h : Computed a bound n l)
    (hbound : ∀ d : α, bound < d → 0 < d) (i j : Fin n) :
  IsNumber (l i j)
  := by
  have hpos := hbound _ (h.pivots j j.isLt)
  rcases lt_trichotomy i j with hij | rfl | hij
  · rw [h.columns i j j.isLt, get_column, if_pos hij]
    exact (AbsorbingNaN.numbers_of_lt _ _ hpos).1
  · rw [h.diagonal_eq i.isLt]
    apply PositiveRoots.number_sqrt _ hpos
  · apply h.number_of_lt i.isLt hij

/-- In double precision what exceeds the floor is positive, for every matrix. -/
theorem pos_of_floor_lt_double (a : Mat Float n n) {d : Float} (hd : floor a < d) :
  0 < d
  := by
  have hzero := dividedAs_double.number_zero_unsigned
  have hε : Unsigned (epsilon : Float).toModel.unpack := by
    obtain ⟨m, e, hm, hε⟩ := exists_epsilon_double
    rw [hε]
    rfl
  have hfloor : 0 ≤ floor a := by
    apply dividedAs_double.nonneg _ (numbers_of_lt _ _ hd).1
    apply dividedAs_double.unsigned_product _ (unsigned_nat n)
    apply dividedAs_double.unsigned_product hε
    exact (dividedAs_double.unsigned_foldl_maxNum_abs hzero.1 hzero.2 _).2
  apply lt_of_number_le_of_lt hfloor hd

/-- A matrix `a` with an entry on or below the diagonal that is not a number is not factored, nor is
one for which a quotient is found that is not a number, in any run of the factorisation. So each
diagonal entry of a factor is the root of a scalar that exceeds the floor; and if such scalars are
positive, then all entries of the factor are numbers, and no solution nor the inverse is found by a
division by zero. -/
theorem factor_stops_nan [AbsorbingNaN α] [PositiveRoots α] (a : Mat α n n) :
  ((∃ i j, j ≤ i ∧ ¬ IsNumber (a i j)) → factor a = .error .notPositiveDefinite)
    ∧ (∀ k hk l, steps a (floor a) k hk = .ok l → (∃ i j, j.val < k ∧ j < i ∧ ¬ IsNumber (l i j)) →
      factor a = .error .notPositiveDefinite)
    ∧ ∀ c, factor a = .ok c →
      (∀ j, ∃ d, floor a < d ∧ c.lower j j = sqrt d)
        ∧ ((∀ d, floor a < d → 0 < d) →
          (∀ i j, IsNumber (c.lower i j))
            ∧ (∀ b : Vec α n, c.guarded.solve b.guarded = (c.solve b).guarded)
            ∧ c.guarded.inverse = c.inverse.guarded)
  := by
  have hfails : factor a = .error .notPositiveDefinite ↔ ¬ ∃ c, factor a = .ok c :=
    eq_error_iff fun _ => factor_eq_error
  rw [hfails]
  refine ⟨?_, ?_, ?_⟩
  · rintro ⟨i, j, hij, ha⟩ ⟨c, hc⟩
    apply ha
    apply (computed_factor hc).number_of_le i.isLt hij
  · rintro k hk l hl ⟨i, j, hj, hij, hquotient⟩ ⟨c, hc⟩
    apply hquotient
    rw [← get_steps_of_lt hk hl (factor_eq_ok_iff.mp hc) i j hj]
    apply (computed_factor hc).number_of_lt i.isLt hij
  · intro c hc
    have h := computed_factor hc
    constructor
    · intro j
      use pivot a c.lower j, h.pivots j j.isLt
      apply h.diagonal_eq j.isLt
    · intro hfloor
      have hdivisors : ∀ i, ¬ IsZero (c.lower i i) := by
        intro i
        rw [h.diagonal_eq i.isLt]
        apply PositiveRoots.sqrt_not_isZero _ (hfloor _ (h.pivots i i.isLt))
      exact ⟨h.number hfloor, solve_guarded hdivisors, inverse_guarded hdivisors⟩

/-- In double precision a matrix with no number below the diagonal is not factored, nor is one for
which a product of zero and an infinity is found; one with no number above the diagonal is. -/
theorem factor_stops_nan_double :
  let nan : Float := 0 / 0
  let infinity : Float := 1 / 0
  let below : Mat Float 2 2 := Mat.ofFn !![4, 0; nan, 2]
  let product : Mat Float 3 3 := Mat.ofFn !![1, 0, 0; 0, 1, 0; infinity, 0, 1]
  let above : Mat Float 2 2 := Mat.ofFn !![4, nan; 2, 2]
  factor below = .error .notPositiveDefinite
    ∧ factor product = .error .notPositiveDefinite
    ∧ ∃ c, factor above = .ok c
      ∧ (∀ j, ∃ d, floor above < d ∧ c.lower j j = sqrt d)
      ∧ (∀ i j, IsNumber (c.lower i j))
      ∧ (∀ b : Vec Float 2, c.guarded.solve b.guarded = (c.solve b).guarded)
      ∧ c.guarded.inverse = c.inverse.guarded
  := by
  intro nan infinity below product above
  refine ⟨?_, ?_, ?_⟩
  · apply (factor_stops_nan below).1
    use 1, 0, by decide
    rw [IsNumber]
    decide +kernel
  · obtain ⟨l, hl, hquotient⟩ : ∃ l, steps product (floor product) 2 (by decide) = .ok l
        ∧ isNaN (l 2 1) = true := by
      apply exists_of_any
      decide +kernel
    apply (factor_stops_nan product).2.1 2 _ l hl
    use 2, 1, by decide, by decide
    rw [IsNumber, hquotient]
    decide
  · have hok : (factor above).isOk = true := by decide +kernel
    obtain ⟨c, hc⟩ := exists_of_isOk hok
    obtain ⟨hroots, hsafe⟩ := (factor_stops_nan above).2.2 c hc
    use c, hc, hroots
    apply hsafe
    intro d
    apply pos_of_floor_lt_double

end Linear.Cholesky

end Numerics
