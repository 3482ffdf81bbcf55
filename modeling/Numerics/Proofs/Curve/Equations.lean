import Numerics.Curve.Fit
import Numerics.Proofs.Steps
import Numerics.Scalar.Machine

/-!
# The equations of the accepted samples

Whatever the arithmetic, a fit holds the equations of the samples that it was made from and of those
that it accepted later, `gathered` in order, and the solution of these equations. The coefficients
that it had in between leave no trace, because a solution takes their place before it is looked at.
So it is the fit that is made of all these samples at once.
-/

namespace Numerics.CurveFit

variable {α : Type} [RealScalar α] {k : Nat} {terms : Monomials k} {c c' : CurveFit α k}
  {samples : List (α × α)}

/-- The equations of the samples of a list, not yet solved. -/
def gathered (terms : Monomials k) (samples : List (α × α)) : CurveFit α k :=
  samples.foldl (fun c s => c.accumulate s.1 s.2) (empty terms)

/-- The fit `c` after an attempt to add each of the samples, where an attempt that fails leaves it
as it was. -/
def addAll (c : CurveFit α k) (samples : List (α × α)) : CurveFit α k :=
  performAll (fun c s => c.add s.1 s.2) c samples

/-- Those of the samples that `c` accepts when they are added one after the other. -/
def accepted (c : CurveFit α k) : List (α × α) → List (α × α)
  | [] => []
  | s :: samples =>
    match c.add s.1 s.2 with
    | .ok c' => s :: c'.accepted samples
    | .error _ => c.accepted samples

theorem accepted_subset (c : CurveFit α k) (samples : List (α × α)) :
  c.accepted samples ⊆ samples
  := by
  induction samples generalizing c with
  | nil => exact List.Subset.refl []
  | cons s samples ih =>
    rw [accepted]
    split
    · exact List.cons_subset_cons s (ih _)
    · exact List.subset_cons_of_subset s (ih c)

theorem ofSamples_eq_ok {xs ys : List α} (h : ofSamples terms xs ys = .ok c) :
  xs.length = ys.length ∧ k ≤ xs.length ∧ (gathered terms (xs.zip ys)).solve = .ok c
  := by
  obtain ⟨pairs, hpairs, h⟩ := bind_eq_ok.mp h
  obtain ⟨hlength, rfl⟩ := Curve.samples_eq_ok hpairs
  split at h
  case isTrue => cases h
  case isFalse hk => exact ⟨hlength, Nat.not_lt.mp hk, h⟩

/-- Samples that are enough are gathered and solved. -/
theorem ofSamples_eq {xs ys : List α} (hlength : xs.length = ys.length) (hxs : xs ≠ [])
    (hk : k ≤ xs.length) :
  ofSamples terms xs ys = (gathered terms (xs.zip ys)).solve
  := by
  rw [ofSamples, Curve.samples_eq hlength hxs]
  exact if_neg (Nat.not_lt.mpr hk)

theorem gathered_concat (s : α × α) :
  gathered terms (samples ++ [s]) = (gathered terms samples).accumulate s.1 s.2
  := by
  rw [gathered, List.foldl_append]
  rfl

theorem solve_eq_ok (h : c.solve = .ok c') :
  ∃ l, Linear.Cholesky.factor c.gram = .ok l ∧ c' = { c with coeffs := l.solve c.moments }
  := by
  rw [solve] at h
  split at h
  case h_1 l hl =>
    cases h
    use l, hl
  case h_2 => cases h

theorem solve_eq_error {e : Curve.Failure} (h : c.solve = .error e) :
  e = .singular
  := by
  rw [solve] at h
  split at h
  · cases h
  · cases h
    rfl

/-- Adding a sample solves the equations of one sample more. -/
theorem add_eq (h : (gathered terms samples).solve = .ok c) (s : α × α) :
  c.add s.1 s.2 = (gathered terms (samples ++ [s])).solve
  := by
  obtain ⟨l, -, rfl⟩ := solve_eq_ok h
  rw [gathered_concat]
  rfl

/-- A fit solves the equations of its samples and of those that it accepts later. -/
theorem solve_gathered_accepted (h : (gathered terms samples).solve = .ok c)
    (more : List (α × α)) :
  (gathered terms (samples ++ c.accepted more)).solve = .ok (c.addAll more)
  := by
  induction more generalizing samples c with
  | nil =>
    rw [accepted, List.append_nil]
    exact h
  | cons s more ih =>
    rw [addAll, performAll, List.foldl_cons, attempt, accepted]
    cases hadd : c.add s.1 s.2 with
    | ok c' =>
      dsimp only
      rw [add_eq h] at hadd
      rw [List.append_cons]
      apply ih hadd
    | error e => apply ih h

/-! ### Samples at once and one by one -/

theorem accepted_eq (c : CurveFit α k) (more : List (α × α)) :
  c.accepted more = performed (fun c s => c.add s.1 s.2) c more
  := by
  induction more generalizing c with
  | nil => rfl
  | cons s more ih =>
    rw [accepted, performed]
    split
    case h_1 c' h => rw [h, ih]
    case h_2 e h => rw [h, ih]

/-- Whatever the arithmetic, a fit to some samples, to which others are added one by one, is the fit
that is made at once from the first samples and those of the others that it accepted, in order. A
sample that it refuses leaves it as it was, so those after it are treated as if it had not come. -/
theorem addAll_eq_ofSamples (terms : Monomials k) (xs ys : List α) (c : CurveFit α k)
    (h : ofSamples terms xs ys = .ok c) (more : List (α × α)) :
  ofSamples terms (xs ++ (c.accepted more).map Prod.fst) (ys ++ (c.accepted more).map Prod.snd)
      = .ok (c.addAll more)
    ∧ ∀ before s after e, more = before ++ s :: after →
        (c.addAll before).add s.1 s.2 = .error e →
          c.addAll (before ++ [s]) = c.addAll before
            ∧ c.addAll more = c.addAll (before ++ after)
            ∧ c.accepted more = c.accepted (before ++ after)
  := by
  constructor
  · obtain ⟨hlength, hk, hsolve⟩ := ofSamples_eq_ok h
    have hpairs : (xs ++ (c.accepted more).map Prod.fst).zip (ys ++ (c.accepted more).map Prod.snd)
        = xs.zip ys ++ c.accepted more := by
      rw [List.zip_append hlength, List.zip_map', List.map_id']
    rw [← solve_gathered_accepted hsolve more, ← hpairs]
    apply ofSamples_eq
    · rw [List.length_append, List.length_append, hlength, List.length_map, List.length_map]
    · obtain ⟨pairs, hpairs, -⟩ := bind_eq_ok.mp h
      apply List.append_ne_nil_of_left_ne_nil (Curve.ne_nil_of_samples hpairs)
    · rw [List.length_append]
      apply Nat.le_add_right_of_le hk
  · rintro before s after e rfl he
    have hrefused := performAll_append_of_error
      (fun (c : CurveFit α k) (s : α × α) => c.add s.1 s.2) c he
    obtain ⟨hstate, haccepted⟩ := hrefused after
    obtain ⟨hlast, -⟩ := hrefused []
    rw [List.append_nil] at hlast
    rw [accepted_eq, accepted_eq]
    use hlast, hstate, haccepted

/-- A line through two samples in double precision, which refuses a sample whose abscissa is not a
number and accepts the next one. -/
theorem addAll_eq_ofSamples_line :
  let nan : Float := 0.0 / 0.0
  ∃ c : CurveFit Float 2, ofSamples .linear [0, 1] [1, 3] = .ok c
    ∧ c.accepted [(nan, 1), (2, 5)] = [(2, 5)]
    ∧ ofSamples .linear [0, 1, 2] [1, 3, 5] = .ok (c.addAll [(nan, 1), (2, 5)])
    ∧ c.addAll [(nan, 1), (2, 5)] = c.addAll [(2, 5)]
  := by
  intro nan
  obtain ⟨c, hc, hnan, hok⟩ : ∃ c : CurveFit Float 2, ofSamples .linear [0, 1] [1, 3] = .ok c
      ∧ (c.add nan 1).isOk = false ∧ (c.add 2 5).isOk = true := by
    apply exists_of_any
    decide +kernel
  clear_value nan
  obtain ⟨e, he⟩ : ∃ e, c.add nan 1 = .error e := by
    cases hadd : c.add nan 1 with
    | ok c' =>
      rw [hadd] at hnan
      cases hnan
    | error e => use e
  obtain ⟨c', hc'⟩ := exists_of_isOk hok
  have haccepted : c.accepted [(nan, 1), (2, 5)] = [(2, 5)] := by
    simp only [accepted, he, hc']
  obtain ⟨hsame, hkept⟩ := addAll_eq_ofSamples .linear [0, 1] [1, 3] c hc [(nan, 1), (2, 5)]
  rw [haccepted, List.map_singleton, List.map_singleton, List.cons_append, List.cons_append,
    List.cons_append, List.cons_append, List.nil_append, List.nil_append] at hsame
  obtain ⟨-, hstate, -⟩ := hkept [] (nan, 1) [(2, 5)] e (List.nil_append _).symm he
  exact ⟨c, hc, haccepted, hsame, hstate⟩

end Numerics.CurveFit
