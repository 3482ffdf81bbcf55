import Numerics.Proofs.Difference.Affine
import Numerics.Proofs.Flow.Drivers
import Numerics.Proofs.Flow.Order

/-!
# Observations of a course

A system `g` is what `f` looks like through the affine map `φ` if the slope of `g` at an image is
the linear part of `φ` applied to the slope of `f`. Then every stage of a step on `g` is the image
of the same stage on `f`, whatever the method and whether the systems are linear or not, so
integrating `g` gives the images of the states that integrating `f` gives, at the same times.

A system that looks constant through a linear form conserves it exactly. And a system whose
equations are listed in another order looks like the given one, with the components of the state in
that order.
-/

namespace Numerics

open Matrix

variable {α : Type} [ExactScalar α] {n m s : Nat}

/-- The system `g` is what `f` looks like through the map `φ`, whose linear part is `l`. -/
structure Observes (φ : Vec α n → Vec α m) (l : Mat α m n) (f : VectorField α n)
    (g : VectorField α m) : Prop where
  affine : IsAffine φ l
  slope_eq : ∀ t x, g t (φ x) = l.mulVec (f t x)

/-! ### Steps -/

namespace Tableau

theorem toFun_advance (tab : Tableau α s) (f : VectorField α n) (t : α) (x : Vec α n) (h : α) :
  (tab.advance f t x h).toFun
    = x.toFun + ∑ i, (h * tab.weights i) • (tab.slope f t x h i).toFun
  := by
  funext c
  rw [advance_eq, Vec.toFun_apply, Vec.get_add, Vec.get_mul, Vec.get_foldl_add, Vec.get_zero,
    zero_add, Pi.add_apply, Finset.sum_apply, Finset.sum_mul]
  congr 1
  apply Finset.sum_congr rfl
  intro i _
  rw [Vec.get_mul, Pi.smul_apply, smul_eq_mul, Vec.toFun_apply]
  ring

end Tableau

namespace Observes

variable {φ : Vec α n → Vec α m} {l : Mat α m n} {f : VectorField α n} {g : VectorField α m}

/-- A combination of slopes that is added to a state, seen through the map. -/
theorem toFun_add_sum (hφ : Observes φ l f g) {ι : Type} (stages : Finset ι) (share : ι → α)
    (v : ι → Vec α n) {x y : Vec α n}
    (hy : y.toFun = x.toFun + ∑ i ∈ stages, share i • (v i).toFun) :
  (φ y).toFun = (φ x).toFun + ∑ i ∈ stages, share i • (l.mulVec (v i)).toFun
  := by
  have hadd : y = x + Vec.ofFn (∑ i ∈ stages, share i • (v i).toFun) := by
    rw [← Vec.toFun_inj, hy, Vec.toFun_add, Vec.toFun_ofFn]
  rw [hadd, hφ.affine, Vec.toFun_add, Mat.toFun_mulVec, Vec.toFun_ofFn, mulVec_sum]
  simp only [mulVec_smul, Mat.toFun_mulVec]

variable (tab : Tableau α s) (t : α) (x : Vec α n) (h : α)

/-- Every stage sees the image of the slope. -/
theorem slope (hφ : Observes φ l f g) (i : Fin s) :
  tab.slope g t (φ x) h i = l.mulVec (tab.slope f t x h i)
  := by
  induction i using WellFoundedLT.induction with
  | ind i ih =>
    have hlook : tab.look g t (φ x) h i = φ (tab.look f t x h i) := by
      rw [← Vec.toFun_inj, Tableau.toFun_look,
        hφ.toFun_add_sum _ _ _ (Tableau.toFun_look tab t x h f i)]
      congr 1
      apply Finset.sum_congr rfl
      intro j hj
      rw [ih j (Finset.mem_Iio.mp hj)]
    rw [Tableau.slope_eq, Tableau.slope_eq, hlook, hφ.slope_eq]

theorem advance (hφ : Observes φ l f g) :
  tab.advance g t (φ x) h = φ (tab.advance f t x h)
  := by
  rw [← Vec.toFun_inj, Tableau.toFun_advance,
    hφ.toFun_add_sum _ _ _ (Tableau.toFun_advance tab f t x h)]
  simp only [hφ.slope]

end Observes

/-! ### Courses -/

/-- The moment `p`, seen through the map `φ`. -/
def Moment.map (φ : Vec α n → Vec α m) (p : Moment α n) : Moment α m :=
  ⟨p.time, φ p.state⟩

namespace Observes

variable {φ : Vec α n → Vec α m} {l : Mat α m n} {f : VectorField α n} {g : VectorField α m}

theorem step (hφ : Observes φ l f g) (tab : Tableau α s) (h : α) (p : Moment α n) :
  (p.map φ).step tab g h = (p.step tab f h).map φ
  := by
  rw [Moment.step, Moment.map, hφ.advance]
  rfl

theorem iterate_step (hφ : Observes φ l f g) (tab : Tableau α s) (h : α) (p : Moment α n)
    (k : Nat) :
  (Moment.step tab g h)^[k] (p.map φ) = ((Moment.step tab f h)^[k] p).map φ
  := by
  have hsemiconj : Function.Semiconj (Moment.map φ) (Moment.step tab f h) (Moment.step tab g h) :=
    fun p => (hφ.step tab h p).symm
  exact (hsemiconj.iterate_right k p).symm

theorem statesFrom (hφ : Observes φ l f g) (tab : Tableau α s) (h : α) (p : Moment α n) (k : Nat) :
  Integrator.statesFrom tab g h k (p.map φ) = (Integrator.statesFrom tab f h k p).map φ
  := by
  induction k generalizing p with
  | zero => rfl
  | succ k ih =>
    rw [Integrator.statesFrom, Integrator.statesFrom, hφ.step, ih]
    rfl

end Observes

namespace Integrator

/-- In steps of any length, the integrator `r'` goes through the images under `φ` of the states that
`r` goes through, at the same times, and lists these images. -/
def Mirrors (φ : Vec α n → Vec α m) (r : Integrator α n s) (r' : Integrator α m s) : Prop :=
  ∀ h k,
    (∃ q q', r.steps h k = .ok q ∧ r'.steps h k = .ok q'
      ∧ q'.time = q.time ∧ q'.state = φ q.state)
    ∧ ∃ states, r.solve h k = .ok states ∧ r'.solve h k = .ok (states.map φ)

theorem mirrors_of_observes {φ : Vec α n → Vec α m} {l : Mat α m n} {f : VectorField α n}
    {g : VectorField α m} (hφ : Observes φ l f g) (tab : Tableau α s) (t : α) (x : Vec α n) :
  Mirrors φ ((unstarted f tab).start t x) ((unstarted g tab).start t (φ x))
  := by
  intro h k
  constructor
  · refine ⟨_, _, steps_eq f tab ⟨t, x⟩ h k, steps_eq g tab ⟨t, φ x⟩ h k, ?_⟩
    have hk := hφ.iterate_step tab h ⟨t, x⟩ k
    constructor
    · exact congrArg Moment.time hk
    · exact congrArg Moment.state hk
  · refine ⟨_, rfl, ?_⟩
    exact congrArg Except.ok (hφ.statesFrom tab h ⟨t, x⟩ k)

end Integrator

/-! ### Conserved forms -/

theorem Mat.get_mulVec_ofRows (r : Fin m → Vec α n) (v : Vec α n) (i : Fin m) :
  (Mat.ofRows r).mulVec v i = (r i).dot v
  := by
  simp only [Mat.get_mulVec, Mat.get_ofRows, Vec.dot]

/-- The system in which nothing moves. -/
def VectorField.still : VectorField α n :=
  fun _ _ => 0

/-- A system looks still through a linear form that its slopes do not change. -/
theorem observes_still {f : VectorField α n} {v : Vec α n} (hv : ∀ t x, v.dot (f t x) = 0) :
  Observes (fun x => (Vec.fill (v.dot x) : Vec α 1)) (Mat.ofRows fun _ => v) f .still
  := by
  have hmulVec : ∀ x, (Mat.ofRows fun _ => v : Mat α 1 n).mulVec x = Vec.fill (v.dot x) := by
    intro x
    ext i
    rw [Mat.get_mulVec_ofRows, Vec.get_fill]
  constructor
  · intro x d
    rw [hmulVec]
    ext i
    rw [Vec.get_add, Vec.get_fill, Vec.get_fill, Vec.get_fill, Vec.dot_add]
  · intro t x
    rw [hmulVec, hv]
    rfl

theorem state_iterate_still (tab : Tableau α s) (h : α) (p : Moment α n) (k : Nat) :
  ((Moment.step tab .still h)^[k] p).state = p.state
  := by
  induction k with
  | zero => rfl
  | succ k ih =>
    rw [Function.iterate_succ_apply', Moment.step, ← ih, ← Vec.toFun_inj, Tableau.toFun_advance]
    simp only [Tableau.slope_eq, VectorField.still, Vec.toFun_zero, smul_zero,
      Finset.sum_const_zero, add_zero]

/-! ### Reordered equations -/

/-- The vector with the entries of `x` in the order `σ`. -/
def Vec.reordered (σ : Equiv.Perm (Fin n)) (x : Vec α n) : Vec α n :=
  Vec.ofFn fun i => x (σ i)

omit [ExactScalar α] in
theorem Vec.reordered_symm_reordered (σ : Equiv.Perm (Fin n)) (x : Vec α n) :
  (x.reordered σ).reordered σ.symm = x
  := by
  ext i
  rw [Vec.reordered, Vec.get_ofFn, Vec.reordered, Vec.get_ofFn, Equiv.apply_symm_apply]

/-- The equations `fs` in the order `σ`, for a state whose components are in this order too. -/
def VectorField.reordered (σ : Equiv.Perm (Fin n)) (fs : Vec (α → Vec α n → α) n) :
    Vec (α → Vec α n → α) n :=
  Vec.ofFn fun i t x => fs (σ i) t (x.reordered σ.symm)

theorem observes_reordered (σ : Equiv.Perm (Fin n)) (fs : Vec (α → Vec α n → α) n) :
  Observes (Vec.reordered σ) (Mat.ofRows fun i => Vec.axis (σ i)) (.ofComponents fs)
    (.ofComponents (VectorField.reordered σ fs))
  := by
  have hmulVec : ∀ x : Vec α n, (Mat.ofRows fun i => Vec.axis (σ i)).mulVec x = x.reordered σ := by
    intro x
    ext i
    rw [Mat.get_mulVec_ofRows, Vec.dot_comm, Vec.dot_axis, Vec.reordered, Vec.get_ofFn]
  constructor
  · intro x d
    rw [hmulVec]
    ext i
    simp only [Vec.reordered, Vec.get_add, Vec.get_ofFn]
  · intro t x
    rw [hmulVec]
    ext i
    simp only [VectorField.ofComponents, VectorField.reordered, Vec.get_ofFn,
      Vec.reordered_symm_reordered]
    rw [Vec.reordered, Vec.get_ofFn, Vec.get_ofFn]

/-! ### The course of an observation -/

namespace Integrator

/-- In exact arithmetic, for every tableau. Let a system `g` be what `f` looks like through the
affine map `l * x + c`: then from the image of a state and at the same time, `g` is integrated to
the images of the states that `f` is integrated to, in steps of any length. A linear form that the
slopes of a system leave unchanged keeps its value along every course. And a system with its
equations in another order is integrated to the states in that order. -/
theorem observation_mirrors (tab : Tableau α s) :
  (∀ (f : VectorField α n) (g : VectorField α m) (l : Mat α m n) (c : Vec α m),
      (∀ t x, g t (l.mulVec x + c) = l.mulVec (f t x)) →
      ∀ t x, Mirrors (fun x => l.mulVec x + c) ((unstarted f tab).start t x)
        ((unstarted g tab).start t (l.mulVec x + c)))
    ∧ (∀ (f : VectorField α n) (v : Vec α n), (∀ t x, v.dot (f t x) = 0) →
      ∀ t x h k, ∃ r, ((unstarted f tab).start t x).steps h k = .ok r ∧ v.dot r.state = v.dot x)
    ∧ ∀ (fs : Vec (α → Vec α n → α) n) (σ : Equiv.Perm (Fin n)) (t : α) (x : Vec α n),
      Mirrors (Vec.reordered σ) ((unstarted (.ofComponents fs) tab).start t x)
        ((unstarted (.ofComponents (VectorField.reordered σ fs)) tab).start t (x.reordered σ))
  := by
  refine ⟨?_, ?_, ?_⟩
  · intro f g l c hfg t x
    have hφ : Observes (fun x => l.mulVec x + c) l f g := ⟨(isAffine_mulVec l).add_const c, hfg⟩
    apply mirrors_of_observes hφ tab t x
  · intro f v hv t x h k
    refine ⟨_, steps_eq f tab ⟨t, x⟩ h k, ?_⟩
    have hk := congrArg Moment.state ((observes_still hv).iterate_step tab h ⟨t, x⟩ k)
    rw [state_iterate_still] at hk
    have hfirst := congrArg (fun y : Vec α 1 => y 0) hk
    simp only [Moment.map, Vec.get_fill] at hfirst
    exact hfirst.symm
  · intro fs σ t x
    apply mirrors_of_observes (observes_reordered σ fs) tab t x

/-- A substance turns into another one, at the rate of its square. What is left of it, shown with an
offset, follows an equation of its own, and the sum of both is conserved. -/
theorem observation_mirrors_reaction :
  let f : VectorField ℚ 2 := fun _ x => Vec.ofFn ![-(x 0 * x 0), x 0 * x 0]
  let g : VectorField ℚ 1 := fun _ y => Vec.fill (-((y 0 - 3) * (y 0 - 3)))
  let l : Mat ℚ 1 2 := Mat.ofFn ![![1, 0]]
  let c : Vec ℚ 1 := Vec.fill 3
  let x : Vec ℚ 2 := Vec.ofFn ![2, 1]
  (∀ t x, g t (l.mulVec x + c) = l.mulVec (f t x))
    ∧ (∀ t x, (Vec.fill 1).dot (f t x) = 0)
    ∧ Mirrors (fun x => l.mulVec x + c) ((unstarted f .classical).start 0 x)
      ((unstarted g .classical).start 0 (l.mulVec x + c))
    ∧ ∀ h k, ∃ r, ((unstarted f .classical).start 0 x).steps h k = .ok r
      ∧ (Vec.fill 1).dot r.state = 3
  := by
  intro f g l c x
  have hfirst : ∀ y : Vec ℚ 2, l.mulVec y 0 = y 0 := by
    intro y
    simp [l, Mat.get_mulVec, Fin.foldl_succ]
  have hfg : ∀ t x, g t (l.mulVec x + c) = l.mulVec (f t x) := by
    intro t x
    ext i
    obtain rfl := Subsingleton.elim 0 i
    rw [hfirst]
    simp [f, g, c, hfirst]
  have hv : ∀ t x, (Vec.fill 1).dot (f t x) = 0 := by
    intro t x
    simp [f, Vec.dot, Fin.foldl_succ]
  have hsum : (Vec.fill 1).dot x = 3 := by decide +kernel
  obtain ⟨hmirrors, hconserved, -⟩ := observation_mirrors (α := ℚ) (n := 2) (m := 1) .classical
  use hfg, hv, hmirrors f g l c hfg 0 x
  rw [← hsum]
  apply hconserved f (Vec.fill 1) hv 0 x

end Integrator

end Numerics
