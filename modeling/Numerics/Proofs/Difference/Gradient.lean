import Mathlib.Analysis.Calculus.Deriv.Comp
import Mathlib.Analysis.Calculus.Deriv.Mul
import Mathlib.Analysis.Calculus.Deriv.Polynomial
import Mathlib.Analysis.Calculus.Gradient.Basic
import Mathlib.Analysis.InnerProductSpace.PiL2
import Numerics.Proofs.Difference.Taylor

/-!
# Gradients over the reals

`HasGradient f g z` says that the function `f` of vectors is differentiable at `z` with the gradient
`g`, as a function on the Euclidean space. The entries of `g` are the derivatives along the axes. So
where a function is a polynomial along each axis, of a degree up to the order of the differencing,
its gradient by differences is its gradient.
-/

namespace Numerics

open Polynomial

variable {n : Nat}

/-! ### The Euclidean space -/

/-- The vector `v` as a point of the Euclidean space. -/
noncomputable def Vec.toEuclidean (v : Vec ℝ n) : EuclideanSpace ℝ (Fin n) :=
  WithLp.toLp _ v.toFun

theorem Vec.ofFn_toEuclidean (v : Vec ℝ n) :
  Vec.ofFn v.toEuclidean.ofLp = v
  := by
  ext i
  rw [Vec.get_ofFn]
  rfl

theorem Vec.toEuclidean_mul (v : Vec ℝ n) (s : ℝ) :
  (v * s).toEuclidean = s • v.toEuclidean
  := by
  ext i
  show (v * s) i = s * v i
  rw [Vec.get_mul, mul_comm]

theorem Vec.toEuclidean_set (v : Vec ℝ n) (j : Fin n) (t : ℝ) :
  (v.set j t).toEuclidean = v.toEuclidean + (t - v j) • (Vec.axis j : Vec ℝ n).toEuclidean
  := by
  ext i
  show (v.set j t) i = v i + (t - v j) * (Vec.axis j : Vec ℝ n) i
  rw [Vec.get_set, Vec.get_axis]
  obtain rfl | hij := eq_or_ne i j
  · simp
  · simp [hij, hij.symm]

/-- The inner product with a point on an axis is the coordinate. -/
theorem Vec.inner_axis (i : Fin n) (y : EuclideanSpace ℝ (Fin n)) :
  inner ℝ (Vec.axis i : Vec ℝ n).toEuclidean y = y i
  := by
  rw [PiLp.inner_apply]
  simp [Vec.toEuclidean]

/-! ### Gradients -/

/-- The function `f` is differentiable at `z`, with the gradient `g`. -/
def HasGradient (f : Vec ℝ n → ℝ) (g z : Vec ℝ n) : Prop :=
  HasGradientAt (fun y : EuclideanSpace ℝ (Fin n) => f (Vec.ofFn y.ofLp)) g.toEuclidean
    z.toEuclidean

/-- The gradient of a coordinate. -/
theorem hasGradient_get (i : Fin n) (z : Vec ℝ n) :
  HasGradient (fun v => v i) (Vec.axis i) z
  := by
  have hproj : InnerProductSpace.toDual ℝ _ (Vec.axis i : Vec ℝ n).toEuclidean
      = EuclideanSpace.proj i := by
    ext y
    apply Vec.inner_axis
  rw [HasGradient, hasGradientAt_iff_hasFDerivAt, hproj]
  simp only [Vec.get_ofFn]
  exact (EuclideanSpace.proj i : StrongDual ℝ (EuclideanSpace ℝ (Fin n))).hasFDerivAt

/-- The gradient of a function of one value. -/
theorem HasGradient.comp {f : Vec ℝ n → ℝ} {g z : Vec ℝ n} {φ : ℝ → ℝ} {d : ℝ}
    (hφ : HasDerivAt φ d (f z)) (hf : HasGradient f g z) :
  HasGradient (fun v => φ (f v)) (g * d) z
  := by
  rw [HasGradient, hasGradientAt_iff_hasFDerivAt, Vec.toEuclidean_mul, map_smul]
  rw [← z.ofFn_toEuclidean] at hφ
  exact hφ.comp_hasFDerivAt z.toEuclidean hf.hasFDerivAt

/-- The derivative along an axis is an entry of the gradient. -/
theorem HasGradient.hasDerivAt {f : Vec ℝ n → ℝ} {g z : Vec ℝ n} (h : HasGradient f g z)
    (j : Fin n) :
  HasDerivAt (fun t => f (z.set j t)) (g j) (z j)
  := by
  have hpath : HasDerivAt (fun t => (z.set j t).toEuclidean) (Vec.axis j : Vec ℝ n).toEuclidean
      (z j) := by
    simp only [Vec.toEuclidean_set]
    simpa using (((hasDerivAt_id (z j)).sub_const (z j)).smul_const
      (Vec.axis j : Vec ℝ n).toEuclidean).const_add z.toEuclidean
  have hstart : z.toEuclidean = (z.set j (z j)).toEuclidean := by
    rw [Vec.toEuclidean_set, sub_self, zero_smul, add_zero]
  have hentry : inner ℝ g.toEuclidean (Vec.axis j : Vec ℝ n).toEuclidean = g j := by
    rw [real_inner_comm, Vec.inner_axis]
    rfl
  have hslope := h.hasFDerivAt.comp_hasDerivAt_of_eq (z j) hpath hstart
  rw [InnerProductSpace.toDual_apply_apply, hentry] at hslope
  simpa only [Function.comp_def, Vec.ofFn_toEuclidean] using hslope

/-- Where a function is a polynomial along each axis, of a degree up to the order, differences give
its gradient. -/
theorem PolynomialAlong.gradient_eq {f : Vec ℝ n → ℝ} {g z : Vec ℝ n} {options : Options ℝ}
    {along : Fin n → ℝ[X]} (hf : PolynomialAlong f z options.differencing.order along)
    (hspacing : options.spacing ≠ 0) (h : HasGradient f g z) :
  Numerics.gradient f z options = g
  := by
  ext j
  rw [hf.gradient hspacing j]
  have hslope := h.hasDerivAt j
  simp only [(hf j).2] at hslope
  exact ((along j).hasDerivAt (z j)).unique hslope

/-- Differences give the gradient of a polynomial in one coordinate. -/
theorem hasGradient_eval {P : ℝ[X]} {options : Options ℝ}
    (hdegree : P.natDegree ≤ options.differencing.order) (hspacing : options.spacing ≠ 0)
    (i : Fin n) (z : Vec ℝ n) :
  HasGradient (fun v => P.eval (v i)) (gradient (fun v => P.eval (v i)) z options) z
  := by
  have hgradient := (hasGradient_get i z).comp (P.hasDerivAt (z i))
  have halong : PolynomialAlong (fun v => P.eval (v i)) z options.differencing.order
      (fun j => if j = i then P else C (P.eval (z i))) := by
    intro j
    dsimp only
    split
    case isTrue h =>
      refine ⟨hdegree, ?_⟩
      intro t
      rw [Vec.get_set, if_pos h]
    case isFalse h =>
      refine ⟨(natDegree_C _).trans_le (Nat.zero_le _), ?_⟩
      intro t
      rw [Vec.get_set, if_neg h, eval_C]
  rwa [halong.gradient_eq hspacing hgradient]

end Numerics
