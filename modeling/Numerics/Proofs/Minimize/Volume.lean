import Mathlib.LinearAlgebra.AffineSpace.Independent
import Mathlib.LinearAlgebra.Matrix.NonsingularInverse
import Mathlib.Tactic.Ring
import Numerics.Proofs.Mat.Matrix
import Numerics.Proofs.Minimize.Simplex
import Numerics.Proofs.Scalar.Exact

/-!
# The volume of a simplex

The edges from the first vertex of a simplex to the others are the rows of a matrix, and the
`volume` is its determinant, up to sign the volume of the parallelepiped that they span. The
vertices are affinely independent exactly if it is not zero.

With a column of ones in front, the vertices are the rows of a matrix with the same determinant.
There all vertices are alike. So the volume only changes its sign when the vertices are sorted, and
a vertex that is replaced by a point on the line through it and the centre of the others takes the
volume to a multiple, by the position of the point on that line. Every `Move` of the search is one
of this kind, or halves all edges. So in exact arithmetic no simplex of the search is degenerate.
-/

namespace Numerics.Simplex

open Matrix

variable {α : Type} [ExactScalar α] {n : Nat}

/-! ### Edges -/

/-- The edges from the first vertex to the others. -/
def edges (s : Vertices α n) : Matrix (Fin n) (Fin n) α :=
  fun i j => (s i.succ).x j - (best s).x j

/-- The volume of the parallelepiped that the edges span, with a sign. -/
def volume (s : Vertices α n) : α :=
  (edges s).det

/-- The points of the vertices. -/
def points (s : Vertices α n) (i : Fin (n + 1)) : Fin n → α :=
  (s i).x.toFun

/-- The points of the vertices, as rows that start with a one. -/
def bordered (s : Vertices α n) : Matrix (Fin (n + 1)) (Fin (n + 1)) α :=
  fun i => Fin.cons 1 (points s i)

/-- The same rows, with the first one subtracted from the others. -/
def reduced (s : Vertices α n) : Matrix (Fin (n + 1)) (Fin (n + 1)) α :=
  Fin.cons (Fin.cons 1 (best s).x.toFun) fun i => Fin.cons 0 (edges s i)

theorem det_bordered (s : Vertices α n) :
  (bordered s).det = volume s
  := by
  have hrows : (bordered s).det = (reduced s).det := by
    apply det_eq_of_forall_row_eq_smul_add_const (Fin.cons 0 fun _ => 1) 0 rfl
    intro i j
    cases i using Fin.cases <;> cases j using Fin.cases
      <;> simp [bordered, reduced, edges, points, best]
  have hcorner : reduced s 0 0 = 1 := rfl
  have hcolumn : ∀ i : Fin n, reduced s i.succ 0 = 0 := fun _ => rfl
  have hedges : (reduced s).submatrix Fin.succ Fin.succ = edges s := rfl
  rw [hrows, det_succ_column_zero, Fin.sum_univ_succ, Finset.sum_eq_zero, add_zero, hcorner,
    Fin.succAbove_zero, hedges, Fin.val_zero, pow_zero, one_mul, one_mul, volume]
  intro i _
  rw [hcolumn, mul_zero, zero_mul]

theorem affineIndependent_iff (s : Vertices α n) :
  AffineIndependent α (points s) ↔ volume s ≠ 0
  := by
  rw [affineIndependent_iff_linearIndependent_vsub α (points s) 0,
    ← linearIndependent_equiv (finSuccAboveEquiv (0 : Fin (n + 1)))]
  have hrows : (fun i : { x // x ≠ 0 } => points s i -ᵥ points s 0)
      ∘ finSuccAboveEquiv (0 : Fin (n + 1)) = (edges s).row := by
    funext i j
    simp [points, edges, best, finSuccAboveEquiv_apply]
  rw [hrows, linearIndependent_rows_iff_isUnit, isUnit_iff_isUnit_det, isUnit_iff_ne_zero, volume]

/-- Sorting the vertices changes no more than the sign of the volume. -/
theorem abs_volume_sorted (s : Vertices α n) :
  |volume (sorted s)| = |volume s|
  := by
  obtain ⟨σ, hσ⟩ := Vec.exists_perm_sort s fun v w => decide (v.value < w.value)
  have hrows : bordered (sorted s) = (bordered s).submatrix σ id := by
    ext i j
    rw [submatrix_apply, bordered, points, sorted, hσ]
    rfl
  rw [← det_bordered, hrows, det_permute, det_bordered]
  obtain hsign | hsign := Int.units_eq_one_or (Equiv.Perm.sign σ) <;> simp [hsign]

/-! ### The line through the worst vertex -/

/-- The centre of the vertices but the last is their mean. -/
theorem get_centroid (hn : n ≠ 0) (s : Vertices α n) (j : Fin n) :
  centroid s j = (∑ i : Fin n, (s i.castSucc).x j) / n
  := by
  obtain ⟨m, rfl⟩ := Nat.exists_eq_succ_of_ne_zero hn
  rw [centroid, Vec.get_div, Vec.get_foldl_add, nat_eq, Fin.sum_univ_succ]
  rfl

/-- The vertex `v` is at `t` on the line where the centre of the others is at zero and the last
vertex is at one. -/
def OnLine (s : Vertices α n) (t : α) (v : Vertex α n) : Prop :=
  ∀ j, v.x j = (1 - t) * centroid s j + t * (worst s).x j

variable (n) in
/-- The weights of the vertices in the point of the line at `t`. -/
def lineWeights (t : α) : Fin (n + 1) → α :=
  Fin.snoc (fun _ => (1 - t) / n) t

theorem OnLine.sum_bordered {s : Vertices α n} {t : α} {v : Vertex α n} (h : OnLine s t v)
    (hn : n ≠ 0) :
  ∑ k, lineWeights n t k • bordered s k = Fin.cons 1 v.x.toFun
  := by
  have hn' : (n : α) ≠ 0 := Nat.cast_ne_zero.mpr hn
  funext j
  simp only [Fin.sum_univ_castSucc, lineWeights, Fin.snoc_castSucc, Fin.snoc_last,
    Finset.sum_apply, Pi.smul_apply, smul_eq_mul, ← Finset.mul_sum, bordered, points]
  cases j using Fin.cases with
  | zero =>
    simp only [Fin.cons_zero, mul_one, Finset.sum_const, Finset.card_univ, Fintype.card_fin,
      nsmul_eq_mul]
    rw [div_mul_cancel₀ _ hn', sub_add_cancel]
  | succ j =>
    simp only [Fin.cons_succ, Vec.toFun_apply, h j, get_centroid hn, worst]
    ring

/-- In the place of the last vertex, one on the line at `t` takes the volume to `t` times it. -/
theorem OnLine.volume_replaceWorst {s : Vertices α n} {t : α} {v : Vertex α n}
    (h : OnLine s t v) (hn : n ≠ 0) :
  volume (replaceWorst s v) = t * volume s
  := by
  have hrows : bordered (replaceWorst s v)
      = (bordered s).updateRow (Fin.last n) (∑ k, lineWeights n t k • bordered s k) := by
    rw [h.sum_bordered hn]
    funext i
    rw [bordered, points, replaceWorst, Vec.get_set]
    obtain rfl | hi := eq_or_ne i (Fin.last n)
    · rw [if_pos rfl, updateRow_self]
    · rw [if_neg hi.symm, updateRow_ne hi]
      rfl
  rw [← det_bordered, hrows, det_updateRow_sum, det_bordered, smul_eq_mul, lineWeights,
    Fin.snoc_last]

/-- With all vertices half way to the first, every edge has half its length. -/
theorem volume_shrink (f : Vec α n → α) (s : Vertices α n) :
  volume (shrink f s) = (1 / 2) ^ n * volume s
  := by
  have hedges : edges (shrink f s) = (1 / 2 : α) • edges s := by
    ext i j
    simp [edges, shrink, vertex, best]
    ring
  rw [volume, hedges, det_smul, Fintype.card_fin, volume]

/-! ### Moves -/

/-- What a round of the search may do to a simplex. -/
inductive Move where
  /-- The worst vertex is reflected. -/
  | reflect
  /-- The worst vertex goes beyond its reflection. -/
  | expand
  /-- The worst vertex goes half way from the centre to its reflection. -/
  | contractOutside
  /-- The worst vertex goes half way to the centre. -/
  | contractInside
  /-- All vertices go half way to the best one. -/
  | shrink

namespace Move

/-- The simplex after the move. -/
def apply (f : Vec α n → α) (s : Vertices α n) : Move → Vertices α n
  | reflect => replaceWorst s (reflected f s)
  | expand => replaceWorst s (expanded f s)
  | contractOutside => replaceWorst s (contracted f s (reflected f s).x)
  | contractInside => replaceWorst s (contracted f s (worst s).x)
  | shrink => Simplex.shrink f s

variable (α n) in
/-- The factor by which the move changes the volume of a simplex with `n + 1` vertices, up to its
sign. -/
def factor : Move → α
  | reflect => 1
  | expand => nat 2
  | contractOutside => half
  | contractInside => half
  | shrink => half ^ n

theorem factor_pos (move : Move) :
  0 < move.factor α n
  := by
  cases move <;> simp [factor]

end Move

section

variable (f : Vec α n → α) (s : Vertices α n)

theorem onLine_reflected :
  OnLine s (-1) (reflected f s)
  := by
  intro j
  simp only [reflected, vertex, Vec.get_sub, Vec.get_mul, nat_eq]
  push_cast
  ring

theorem onLine_expanded :
  OnLine s (-2) (expanded f s)
  := by
  intro j
  simp only [expanded, vertex, Vec.get_sub, Vec.get_mul, nat_eq]
  push_cast
  ring

theorem onLine_contracted {t : α} {v : Vertex α n} (h : OnLine s t v) :
  OnLine s (t / 2) (contracted f s v.x)
  := by
  intro j
  simp only [contracted, vertex, Vec.get_add, Vec.get_sub, Vec.get_mul, half_eq, h j]
  ring

theorem onLine_worst :
  OnLine s 1 (worst s)
  := by
  intro j
  ring

/-- The volume after a move. -/
theorem abs_volume_apply (hn : n ≠ 0) (move : Move) :
  |volume (move.apply f s)| = move.factor α n * |volume s|
  := by
  cases move with
  | reflect =>
    rw [Move.apply, (onLine_reflected f s).volume_replaceWorst hn, abs_mul, abs_neg, abs_one]
    rfl
  | expand =>
    rw [Move.apply, (onLine_expanded f s).volume_replaceWorst hn, abs_mul, abs_neg, abs_two,
      Move.factor, nat_eq, Nat.cast_two]
  | contractOutside =>
    rw [Move.apply, (onLine_contracted f s (onLine_reflected f s)).volume_replaceWorst hn, abs_mul,
      abs_div, abs_neg, abs_one, abs_two, Move.factor, half_eq]
  | contractInside =>
    rw [Move.apply, (onLine_contracted f s (onLine_worst s)).volume_replaceWorst hn, abs_mul,
      abs_div, abs_one, abs_two, Move.factor, half_eq]
  | shrink =>
    rw [Move.apply, volume_shrink, abs_mul, abs_of_nonneg (by positivity), Move.factor, half_eq]

theorem improve_eq_apply :
  ∃ move : Move, improve f s = move.apply f s
  := by
  unfold improve
  dsimp only
  split_ifs
  · exact ⟨.expand, rfl⟩
  · exact ⟨.reflect, rfl⟩
  · exact ⟨.reflect, rfl⟩
  · exact ⟨.contractOutside, rfl⟩
  · exact ⟨.shrink, rfl⟩
  · exact ⟨.contractInside, rfl⟩
  · exact ⟨.shrink, rfl⟩

/-- The edges of the first simplex go along the axes. -/
theorem volume_start (x₀ : Vec α n) (edge : α) :
  volume (start f x₀ edge) = edge ^ n
  := by
  have hedges : edges (start f x₀ edge) = edge • (1 : Matrix (Fin n) (Fin n) α) := by
    ext i j
    simp only [edges, best, start, Vec.get_ofFn, vertex, Vec.ahead, Fin.succ_ne_zero, dite_false,
      dite_true, Fin.pred_succ, Vec.get_set, Matrix.smul_apply, Matrix.one_apply]
    split
    case isTrue hij => simp [hij]
    case isFalse => simp
  rw [volume, hedges, det_smul, det_one, Fintype.card_fin, mul_one]

end

/-! ### The search -/

variable {f : Vec α n → α} {x₀ : Vec α n} {options : Options α} {s s' : Vertices α n} {k : Nat}

/-- A round that does not end the search sorts the vertices and makes a move. -/
theorem exists_move {tol : α} (h : step f tol k s = .next s') :
  n ≠ 0 ∧ ∃ move : Move, s' = move.apply f (sorted s)
  := by
  obtain ⟨hn, rfl⟩ := step_eq_next h
  use hn
  apply improve_eq_apply

/-- After `k` rounds the volume is that of the first simplex, changed by `k` moves. -/
theorem Visited.exists_moves (h : Visited f x₀ options k s) :
  ∃ moves : List Move, moves.length = k
    ∧ |volume s| = (moves.map (Move.factor α n)).prod * |options.spacing * 100| ^ n
  := by
  induction h with
  | start =>
    refine ⟨[], rfl, ?_⟩
    rw [volume_start, abs_pow, nat_eq, List.map_nil, List.prod_nil, one_mul, Nat.cast_ofNat]
  | next _ hstep ih =>
    obtain ⟨moves, hlength, hvolume⟩ := ih
    obtain ⟨hn, move, rfl⟩ := exists_move (Except.ok.inj hstep)
    use move :: moves, congrArg Nat.succ hlength
    rw [abs_volume_apply f _ hn, abs_volume_sorted, hvolume, List.map_cons, List.prod_cons,
      mul_assoc]

theorem Visited.volume_ne_zero (h : Visited f x₀ options k s) (hspacing : options.spacing ≠ 0) :
  volume s ≠ 0
  := by
  obtain ⟨moves, -, hvolume⟩ := h.exists_moves
  rw [← abs_pos, hvolume]
  apply mul_pos
  · apply List.prod_pos
    intro a ha
    obtain ⟨move, -, rfl⟩ := List.mem_map.mp ha
    apply move.factor_pos
  · apply pow_pos
    rw [abs_pos]
    exact mul_ne_zero hspacing (by norm_num)

/-- With exact scalars, at least one variable and a step that is not zero: the vertices of every
simplex that the search comes to are affinely independent, before and after they are sorted. A round
makes one of five moves. A reflection keeps the volume, an expansion doubles it, both contractions
halve it, and a shrink halves it once for every variable, whatever the simplex; sorting keeps it. So
the volume after some rounds is the volume of the first simplex times the factors of as many moves.
-/
theorem visited_affineIndependent (f : Vec α n → α) (x₀ : Vec α n) (options : Options α)
    (hn : n ≠ 0) (hspacing : options.spacing ≠ 0) :
  (∀ k s, Visited f x₀ options k s →
      AffineIndependent α (points s) ∧ AffineIndependent α (points (sorted s)))
    ∧ (∀ k s s', step f options.tolerance k s = .next s' →
      ∃ move : Move, s' = move.apply f (sorted s))
    ∧ (∀ s, |volume (sorted s)| = |volume s|
      ∧ ∀ move : Move, |volume (move.apply f s)| = move.factor α n * |volume s|)
    ∧ ∀ k s, Visited f x₀ options k s →
      ∃ moves : List Move, moves.length = k
        ∧ |volume s| = (moves.map (Move.factor α n)).prod * |options.spacing * 100| ^ n
  := by
  refine ⟨?_, ?_, ?_, ?_⟩
  · intro k s hs
    have hvolume := hs.volume_ne_zero hspacing
    rw [affineIndependent_iff, affineIndependent_iff]
    use hvolume
    rw [← abs_pos, abs_volume_sorted, abs_pos]
    exact hvolume
  · intro k s s' hstep
    exact (exists_move hstep).2
  · intro s
    exact ⟨abs_volume_sorted s, abs_volume_apply f s hn⟩
  · intro k s hs
    apply hs.exists_moves

/-- On a ramp over the plane, after one round. -/
theorem visited_affineIndependent_ramp :
  let f : Vec ℚ 2 → ℚ := fun x => x 0 + x 1
  let options : Options ℚ := .standard (1 / 1000)
  2 ≠ 0 ∧ options.spacing ≠ 0
    ∧ ∃ s, Visited f 0 options 1 s
      ∧ AffineIndependent ℚ (points (sorted s))
      ∧ |volume (Move.expand.apply f s)| = 2 * |volume s|
  := by
  intro f options
  have hspacing : options.spacing ≠ 0 := by decide +kernel
  have hwide : ¬ (2 = 0 ∨ collapsed (sorted (start f 0 (options.spacing * nat 100)))
      options.tolerance = true) := by decide +kernel
  obtain ⟨hindependent, -, hvolume, -⟩ :=
    visited_affineIndependent f 0 options two_ne_zero hspacing
  have hvisited : Visited f 0 options 1 _ :=
    .next .start (congrArg Except.ok (if_neg hwide))
  refine ⟨two_ne_zero, hspacing, _, hvisited, (hindependent 1 _ hvisited).2, ?_⟩
  rw [(hvolume _).2 .expand, Move.factor, nat_eq, Nat.cast_two]

end Numerics.Simplex
