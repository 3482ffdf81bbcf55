import Mathlib.LinearAlgebra.Dimension.Constructions
import Mathlib.LinearAlgebra.FiniteDimensional.Lemmas
import Mathlib.LinearAlgebra.Matrix.ToLin
import Numerics.Proofs.Curve.Equations
import Numerics.Proofs.Linear.Symmetric
import Numerics.Proofs.Scalar.Power

/-!
# The least sum of squares

In exact arithmetic the powers of a fit are those of its exponents, as long as these are read as
they are, and `squaredError` is what the coefficients of the fit make least.

The equations of the samples hold two things about the error. What coefficients leave of them, their
`imbalance`, is the sum of the deviations from the samples, each times a power, and the form of
their matrix is a sum of squares. So the error at other coefficients is the error, less twice the
product of the change and the imbalance, plus the form at the change. A factor of the matrix solves
the equations without imbalance, and shows that the form is positive.

If there are fewer abscissae than powers, then some coefficients other than zero have a sum of
powers that vanishes at all of them. The form vanishes at these, and so there is no factor.
-/

namespace Numerics

open Matrix

variable {α : Type} [ExactScalar α] {k : Nat}

/-! ### Sums of powers -/

namespace Monomials

variable {terms : Monomials k}

/-- The exponent of the power `i`. -/
def exponent (terms : Monomials k) (i : Fin k) : Nat :=
  (terms.exponents i).toNat

/-- The value at `x` of the sum of the powers with the coefficients `v`. -/
def combine (terms : Monomials k) (v : Vec α k) (x : α) : α :=
  ∑ i, v i * x ^ terms.exponent i

/-- Exponents below `2 ^ 31` are read as they are. -/
theorem get_eval {i : Fin k} (h : terms.exponent i < 2 ^ 31) (x : α) :
  terms.eval x i = x ^ terms.exponent i
  := by
  have hsigned : (terms.exponents i).toInt32.toInt = (terms.exponent i : Int) := by
    apply BitVec.toInt_eq_toNat_of_lt
    rw [exponent] at h
    show 2 * (terms.exponents i).toNat < 2 ^ 32
    omega
  rw [eval, Vec.get_ofFn, hsigned]
  apply natPower_eq

theorem dot_eval (h : ∀ i, terms.exponent i < 2 ^ 31) (v : Vec α k) (x : α) :
  (terms.eval x).dot v = terms.combine v x
  := by
  rw [Vec.dot_eq, dotProduct, combine]
  apply Finset.sum_congr rfl
  intro i _
  rw [Vec.toFun_apply, Vec.toFun_apply, get_eval (h i), mul_comm]

/-- Fewer abscissae than powers do not tell all coefficients from zero. -/
theorem exists_dot_eq_zero (terms : Monomials k) {xs : List α} (h : xs.toFinset.card < k) :
  ∃ v : Vec α k, v ≠ 0 ∧ ∀ x ∈ xs, (terms.eval x).dot v = 0
  := by
  let values : Matrix xs.toFinset (Fin k) α := .of fun x i => terms.eval x.val i
  have hker : LinearMap.ker values.mulVecLin ≠ ⊥ := by
    apply LinearMap.ker_ne_bot_of_finrank_lt
    rw [Module.finrank_fintype_fun_eq_card, Module.finrank_fintype_fun_eq_card, Fintype.card_coe,
      Fintype.card_fin]
    exact h
  obtain ⟨w, hw, hne⟩ := Submodule.exists_mem_ne_zero_of_ne_bot hker
  use Vec.ofFn w
  constructor
  · intro hzero
    apply hne
    rw [← Vec.toFun_ofFn w, hzero, Vec.toFun_zero]
  · intro x hx
    rw [Vec.dot_eq, Vec.toFun_ofFn]
    apply congrFun hw ⟨x, List.mem_toFinset.mpr hx⟩

end Monomials

/-! ### Squared errors -/

namespace CurveFit

variable {terms : Monomials k} {samples : List (α × α)} {c : CurveFit α k}

/-- How far the sum of powers with the coefficients `v` misses the sample `s`. -/
def deviation (terms : Monomials k) (v : Vec α k) (s : α × α) : α :=
  s.2 - terms.combine v s.1

/-- The sum of the squared deviations from the samples. -/
def squaredError (terms : Monomials k) (samples : List (α × α)) (v : Vec α k) : α :=
  (samples.map fun s => deviation terms v s ^ 2).sum

theorem squaredError_concat (s : α × α) (v : Vec α k) :
  squaredError terms (samples ++ [s]) v = squaredError terms samples v + deviation terms v s ^ 2
  := by
  rw [squaredError, List.map_append, List.sum_append, List.map_singleton, List.sum_singleton]
  rfl

theorem squaredError_nonneg (terms : Monomials k) (samples : List (α × α)) (v : Vec α k) :
  0 ≤ squaredError terms samples v
  := by
  apply List.sum_nonneg
  rw [List.forall_mem_map]
  intro s _
  apply sq_nonneg

theorem squaredError_eq_zero {v : Vec α k} (h : ∀ s ∈ samples, s.2 = terms.combine v s.1) :
  squaredError terms samples v = 0
  := by
  apply List.sum_eq_zero
  rw [List.forall_mem_map]
  intro s hs
  rw [deviation, ← h s hs, sub_self, zero_pow two_ne_zero]

/-- The value of a fit is the sum of its powers with its coefficients. -/
theorem eval_eq (h : ∀ i, c.terms.exponent i < 2 ^ 31) (x : α) :
  c.eval x = c.terms.combine c.coeffs x
  := Monomials.dot_eval h c.coeffs x

/-! ### What the equations say -/

/-- What the coefficients `v` leave of the equations of `c`. -/
def imbalance (c : CurveFit α k) (v : Vec α k) : Vec α k :=
  c.moments - c.gram.mulVec v

theorem gathered_terms (terms : Monomials k) (samples : List (α × α)) :
  (gathered terms samples).terms = terms
  := by
  induction samples using List.reverseRecOn with
  | nil => rfl
  | append_singleton samples s ih =>
    rw [gathered_concat]
    exact ih

theorem imbalance_nil (terms : Monomials k) (v : Vec α k) :
  (gathered terms []).imbalance v = 0
  := by
  have hzero : (gathered terms []).imbalance v = 0 - (0 : Mat α k k).mulVec v := rfl
  rw [hzero, Mat.zero_mulVec, ← Vec.toFun_inj, Vec.toFun_sub, sub_self, Vec.toFun_zero]

theorem form_nil (terms : Monomials k) (v : Vec α k) :
  (gathered terms []).gram.form v = 0
  := by
  have hzero : (gathered terms []).gram.form v = v.dot ((0 : Mat α k k).mulVec v) := rfl
  rw [hzero, Mat.zero_mulVec, Vec.dot_zero]

theorem mulVec_accumulate (c : CurveFit α k) (x y : α) (v : Vec α k) :
  (c.accumulate x y).gram.mulVec v
    = c.gram.mulVec v + c.terms.eval x * (c.terms.eval x).dot v
  := by
  rw [accumulate, Mat.add_mulVec, Mat.outer_mulVec]

theorem imbalance_accumulate (c : CurveFit α k) (x y : α) (v : Vec α k) :
  (c.accumulate x y).imbalance v
    = c.imbalance v + c.terms.eval x * (y - (c.terms.eval x).dot v)
  := by
  rw [imbalance, imbalance, mulVec_accumulate]
  ext i
  rw [accumulate]
  simp only [Vec.get_add, Vec.get_sub, Vec.get_mul]
  ring

theorem form_accumulate (c : CurveFit α k) (x y : α) (v : Vec α k) :
  (c.accumulate x y).gram.form v = c.gram.form v + (c.terms.eval x).dot v ^ 2
  := by
  rw [Mat.form, mulVec_accumulate, Vec.dot_add, Vec.dot_mul, Vec.dot_comm v (c.terms.eval x),
    ← Mat.form, pow_two]

theorem transpose_gram (terms : Monomials k) (samples : List (α × α)) :
  (gathered terms samples).gram.transpose = (gathered terms samples).gram
  := by
  induction samples using List.reverseRecOn with
  | nil =>
    ext i j
    exact (Mat.get_transpose _ i j).trans ((Mat.get_zero j i).trans (Mat.get_zero i j).symm)
  | append_singleton samples s ih =>
    rw [gathered_concat, accumulate, Mat.transpose_add, ih, Mat.transpose_outer]

/-- What coefficients leave of the equations are the sums of their deviations, each times a power.
-/
theorem imbalance_gathered (h : ∀ i, terms.exponent i < 2 ^ 31) (v : Vec α k) (j : Fin k) :
  (gathered terms samples).imbalance v j
    = (samples.map fun s => deviation terms v s * s.1 ^ terms.exponent j).sum
  := by
  induction samples using List.reverseRecOn with
  | nil => rw [imbalance_nil, Vec.get_zero, List.map_nil, List.sum_nil]
  | append_singleton samples s ih =>
    rw [gathered_concat, imbalance_accumulate, gathered_terms, Vec.get_add, Vec.get_mul, ih,
      Monomials.dot_eval h, Monomials.get_eval (h j), List.map_append, List.sum_append,
      List.map_singleton, List.sum_singleton, mul_comm]
    rfl

theorem form_gathered (v : Vec α k) :
  (gathered terms samples).gram.form v
    = (samples.map fun s => (terms.eval s.1).dot v ^ 2).sum
  := by
  induction samples using List.reverseRecOn with
  | nil => rw [form_nil, List.map_nil, List.sum_nil]
  | append_singleton samples s ih =>
    rw [gathered_concat, form_accumulate, gathered_terms, ih, List.map_append, List.sum_append,
      List.map_singleton, List.sum_singleton]

theorem deviation_add (h : ∀ i, terms.exponent i < 2 ^ 31) (v d : Vec α k) (s : α × α) :
  deviation terms (v + d) s = deviation terms v s - (terms.eval s.1).dot d
  := by
  rw [deviation, deviation, ← Monomials.dot_eval h, ← Monomials.dot_eval h, Vec.dot_add, sub_sub]

/-- The squared error of other coefficients. -/
theorem squaredError_add (h : ∀ i, terms.exponent i < 2 ^ 31) (v d : Vec α k) :
  squaredError terms samples (v + d)
    = squaredError terms samples v - 2 * d.dot ((gathered terms samples).imbalance v)
      + (gathered terms samples).gram.form d
  := by
  induction samples using List.reverseRecOn with
  | nil =>
    rw [imbalance_nil, form_nil, Vec.dot_zero, mul_zero, sub_zero, add_zero]
    rfl
  | append_singleton samples s ih =>
    rw [squaredError_concat, squaredError_concat, ih, gathered_concat, imbalance_accumulate,
      form_accumulate, gathered_terms, Vec.dot_add, Vec.dot_mul, Vec.dot_comm d (terms.eval s.1),
      deviation_add h, Monomials.dot_eval h v, ← deviation]
    ring

/-! ### Coefficients of least error -/

/-- The coefficients `v` balance the deviations from the samples, and no others have as little
squared error. -/
structure LeastSquares (terms : Monomials k) (samples : List (α × α)) (v : Vec α k) : Prop where
  /-- The normal equations. -/
  balanced : ∀ j, (samples.map fun s => deviation terms v s * s.1 ^ terms.exponent j).sum = 0
  least : ∀ w, w ≠ v → squaredError terms samples v < squaredError terms samples w

/-- Samples on a sum of powers give back its coefficients. -/
theorem LeastSquares.eq_of_exact {v w : Vec α k} (h : LeastSquares terms samples v)
    (hw : ∀ s ∈ samples, s.2 = terms.combine w s.1) :
  w = v
  := by
  by_contra hne
  have hless := h.least w hne
  rw [squaredError_eq_zero hw] at hless
  exact hless.not_ge (squaredError_nonneg terms samples v)

end CurveFit

/-! ### Solved equations -/

namespace CurveFit

variable {α : Type} [ExactReal α] {terms : Monomials k} {samples : List (α × α)} {c : CurveFit α k}

theorem leastSquares_of_solve (h : ∀ i, terms.exponent i < 2 ^ 31)
    (hc : (gathered terms samples).solve = .ok c) :
  LeastSquares terms samples c.coeffs
  := by
  obtain ⟨l, hl, rfl⟩ := solve_eq_ok hc
  have hfactors := Linear.Cholesky.factor_factors (transpose_gram terms samples) hl
  have hbalance : (gathered terms samples).imbalance (l.solve (gathered terms samples).moments)
      = 0 := by
    rw [imbalance, hfactors.mulVec_solve, ← Vec.toFun_inj, Vec.toFun_sub, sub_self, Vec.toFun_zero]
  constructor
  · intro j
    rw [← imbalance_gathered h, hbalance, Vec.get_zero]
  · intro w hw
    obtain ⟨d, hd, rfl⟩ := Vec.exists_eq_add_of_ne hw
    rw [squaredError_add h, hbalance, Vec.dot_zero, mul_zero, sub_zero]
    apply lt_add_of_pos_right
    apply hfactors.posDef.form_pos d hd

/-- Samples with fewer abscissae than there are powers have no fit, as some combination of the
powers vanishes at all of them. -/
theorem solve_gathered_of_card_lt (h : (samples.map Prod.fst).toFinset.card < k) :
  (gathered terms samples).solve = .error .singular
  := by
  cases hc : (gathered terms samples).solve with
  | error e => rw [solve_eq_error hc]
  | ok c =>
    exfalso
    obtain ⟨l, hl, -⟩ := solve_eq_ok hc
    have hfactors := Linear.Cholesky.factor_factors (transpose_gram terms samples) hl
    obtain ⟨v, hv, hdot⟩ := terms.exists_dot_eq_zero h
    have hpos := hfactors.posDef.form_pos v hv
    rw [form_gathered, List.sum_eq_zero] at hpos
    · exact lt_irrefl _ hpos
    · rw [List.forall_mem_map]
      intro s hs
      rw [hdot s.1 (List.mem_map_of_mem hs), zero_pow two_ne_zero]

/-! ### Samples on a line -/

theorem exponent_linear (i : Fin 2) :
  Monomials.linear.exponent i = i
  := by
  revert i
  decide

/-- The equations of four samples at `1` and `-1`, for a constant and a linear term. -/
theorem gram_line :
  (gathered .linear ([1, -1, 1, -1].zip [3, 1, 3, 1] : List (ℝ × ℝ))).gram
    = Mat.ofFn ![![4, 0], ![0, 4]]
  := by
  have hpowers : ∀ (x : ℝ) (i : Fin 2), Monomials.linear.eval x i = x ^ i.val := by
    intro x i
    have hbound : Monomials.linear.exponent i < 2 ^ 31 := by
      rw [exponent_linear]
      omega
    rw [Monomials.get_eval hbound, exponent_linear]
  ext i j
  fin_cases i <;> fin_cases j <;>
    norm_num [gathered, accumulate, empty, hpowers, Mat.get_add, Mat.get_outer, Mat.get_zero]

/-- The matrix of these equations has a factor. -/
theorem exists_factor_line :
  ∃ l, Linear.Cholesky.factor (Mat.ofFn ![![4, 0], ![0, 4]] : Mat ℝ 2 2) = .ok l
  := by
  have hfloor : Linear.Cholesky.floor (Mat.ofFn ![![4, 0], ![0, 4]] : Mat ℝ 2 2) < 1 := by
    have hε : (epsilon : ℝ) = 1 / 2 ^ 52 := rfl
    rw [Linear.Cholesky.floor, hε]
    norm_num [Fin.foldl_succ_last, Fin.last]
  have hpivot : 1 < Linear.Cholesky.pivot (Mat.ofFn ![![4, 0], ![0, 4]] : Mat ℝ 2 2) 0
      ⟨0, two_pos⟩ := by
    norm_num [Linear.Cholesky.pivot, foldBelow]
  have hfirst := Linear.Cholesky.steps_succ_eq_ok (k := 0) one_le_two rfl (hfloor.trans hpivot)
  have hsecond := Linear.Cholesky.steps_succ_eq_ok le_rfl hfirst (hfloor.trans (by
    norm_num [Linear.Cholesky.pivot, foldBelow, Mat.get_setCol, Linear.Cholesky.get_column,
      Fin.foldl_succ_last]))
  exact ⟨⟨_⟩, Linear.Cholesky.factor_eq_ok_iff.mpr hsecond⟩

/-! ### Fits -/

/-- With exact scalars and roots, and exponents that are read as they are: a fit to samples, and to
those of further ones that it accepts, has the coefficients with the least squared error, which
balance the deviations; samples on a sum of the powers give back its coefficients; and enough
samples with fewer abscissae than there are powers are reported. -/
theorem ofSamples_least_squares (terms : Monomials k) (hterms : ∀ i, terms.exponent i < 2 ^ 31)
    (xs ys : List α) :
  (∀ c, ofSamples terms xs ys = .ok c → ∀ more,
      LeastSquares terms (xs.zip ys ++ c.accepted more) (c.addAll more).coeffs
        ∧ ∀ w, (∀ s ∈ xs.zip ys ++ c.accepted more, s.2 = terms.combine w s.1) →
            (c.addAll more).coeffs = w)
    ∧ (xs.length = ys.length → k ≤ xs.length → xs.toFinset.card < k →
        ofSamples terms xs ys = .error .singular)
  := by
  constructor
  · intro c hc more
    obtain ⟨-, -, hsolve⟩ := ofSamples_eq_ok hc
    have hleast := leastSquares_of_solve hterms (solve_gathered_accepted hsolve more)
    use hleast
    intro w hw
    exact (hleast.eq_of_exact hw).symm
  · intro hlength hk hcard
    have hxs : xs ≠ [] := by
      rintro rfl
      exact hcard.not_ge hk
    rw [ofSamples_eq hlength hxs hk]
    apply solve_gathered_of_card_lt
    rw [List.map_fst_zip hlength.le]
    exact hcard

/-- Four samples on a line, to which a fifth one is added, and three samples at one abscissa. -/
theorem ofSamples_least_squares_line :
  (∀ i, Monomials.linear.exponent i < 2 ^ 31)
    ∧ (∃ c : CurveFit ℝ 2, ofSamples .linear [1, -1, 1, -1] [3, 1, 3, 1] = .ok c
      ∧ (c.addAll [(0, 2)]).coeffs = Vec.ofFn ![2, 1])
    ∧ ofSamples .linear [1, 1, 1] ([0, 1, 2] : List ℝ) = .error .singular
  := by
  have hterms : ∀ i, Monomials.linear.exponent i < 2 ^ 31 := by decide
  use hterms
  constructor
  · obtain ⟨l, hl⟩ := exists_factor_line
    rw [← gram_line] at hl
    obtain ⟨c, hc⟩ : ∃ c : CurveFit ℝ 2, ofSamples .linear [1, -1, 1, -1] [3, 1, 3, 1] = .ok c := by
      rw [ofSamples_eq (by rfl) (List.cons_ne_nil _ _) (by decide), solve, hl]
      exact ⟨_, rfl⟩
    use c, hc
    obtain ⟨hfits, -⟩ := ofSamples_least_squares .linear hterms [1, -1, 1, -1] [(3 : ℝ), 1, 3, 1]
    obtain ⟨-, hexact⟩ := hfits c hc [(0, 2)]
    apply hexact
    have hline : ∀ x : ℝ, Monomials.linear.combine (Vec.ofFn ![2, 1]) x = 2 + x := by
      intro x
      simp [Monomials.combine, Fin.sum_univ_two, exponent_linear]
    intro s hs
    rw [hline]
    rcases List.mem_append.mp hs with hs | hs
    · simp only [List.zip_cons_cons, List.zip_nil_right, List.mem_cons, List.not_mem_nil] at hs
      rcases hs with rfl | rfl | rfl | rfl | ⟨⟨⟩⟩ <;> norm_num
    · rw [List.mem_singleton.mp (accepted_subset c _ hs)]
      norm_num
  · apply (ofSamples_least_squares .linear hterms [1, 1, 1] [0, 1, 2]).2 rfl (by decide)
    simp

end CurveFit

end Numerics
