import Mathlib.Algebra.Order.Field.Basic
import Mathlib.LinearAlgebra.Lagrange
import Numerics.Curve.Newton
import Numerics.Proofs.Scalar.Exact

/-!
# The polynomial in Newton's form

A divided difference over some abscissae is the leading coefficient of the polynomial of least
degree through the values there, `divided`. So it depends on the set of the abscissae only, and not
on their order. It follows from two divided differences over one abscissa less, and it is what a
polynomial in Newton's form adds for a new abscissa.

The nodes of an interpolation, the last one first, are `Tabulated` if the row of each of them holds
the divided differences over the node alone, over it and the node before, and so on. Adding a node
keeps this, because the new row runs along the abscissae in the same order as the last one does. The
value of the interpolation is then that of the polynomial through its nodes.
-/

namespace Numerics.Newton

open Polynomial Curve

variable {α : Type} [ExactScalar α]

/-! ### Divided differences -/

section

variable (y : α → α) {s : Finset α} {x z : α} {q : α[X]}

/-- The divided difference of `y` over the abscissae in `s`. -/
noncomputable def divided (y : α → α) (s : Finset α) : α :=
  (Lagrange.interpolate s id y).coeff (s.card - 1)

theorem divided_singleton (x : α) :
  divided y {x} = y x
  := by
  rw [divided, Lagrange.interpolate_singleton, Finset.card_singleton, coeff_C_zero]

theorem eval_interpolate (hx : x ∈ s) :
  (Lagrange.interpolate s id y).eval x = y x
  := Lagrange.eval_interpolate_at_node (v := id) y Function.injective_id.injOn hx

theorem degree_interpolate_lt (s : Finset α) :
  (Lagrange.interpolate s id y).degree < s.card
  := Lagrange.degree_interpolate_lt y Function.injective_id.injOn

theorem coeff_mul_basisDivisor {n : Nat} (hq : q.degree < (n + 1 : Nat)) (x z : α) :
  (q * Lagrange.basisDivisor x z).coeff (n + 1) = q.coeff n / (x - z)
  := by
  have htop : q.coeff (n + 1) = 0 := coeff_eq_zero_of_degree_lt hq
  rw [Lagrange.basisDivisor, mul_left_comm, coeff_C_mul, mul_sub, coeff_sub, coeff_mul_X,
    coeff_mul_C, htop, zero_mul, sub_zero, div_eq_inv_mul]

/-- A divided difference follows from two over one abscissa less. -/
theorem divided_insert_insert (hx : x ∉ s) (hz : z ∉ s) (hxz : x ≠ z) :
  divided y (insert z (insert x s)) = (divided y (insert x s) - divided y (insert z s)) / (x - z)
  := by
  have hz' : z ∉ insert x s := by
    rw [Finset.mem_insert, not_or]
    exact ⟨hxz.symm, hz⟩
  have hx' : x ∉ insert z s := by
    rw [Finset.mem_insert, not_or]
    exact ⟨hxz, hx⟩
  have hdegree : ∀ w, w ∉ s →
      (Lagrange.interpolate (insert w s) id y).degree < (s.card + 1 : Nat) := by
    intro w hw
    rw [← Finset.card_insert_of_notMem hw]
    apply degree_interpolate_lt
  have hdivided : ∀ w, w ∉ s →
      (Lagrange.interpolate (insert w s) id y).coeff s.card = divided y (insert w s) := by
    intro w hw
    rw [divided, Finset.card_insert_of_notMem hw, Nat.add_sub_cancel]
  have hsplit := Lagrange.interpolate_eq_add_interpolate_erase y
    (Function.injective_id (α := α)).injOn (Finset.mem_insert_of_mem (Finset.mem_insert_self x s))
    (Finset.mem_insert_self z _) hxz
  rw [Finset.erase_insert hz', Finset.insert_comm z x s, Finset.erase_insert hx'] at hsplit
  rw [divided, Finset.card_insert_of_notMem hz', Finset.card_insert_of_notMem hx,
    Nat.add_sub_cancel, Finset.insert_comm z x s, hsplit, coeff_add,
    coeff_mul_basisDivisor (hdegree x hx), coeff_mul_basisDivisor (hdegree z hz), hdivided x hx,
    hdivided z hz, id, id, ← neg_sub x z, div_neg, ← sub_eq_add_neg, sub_div]

/-- The polynomial through one more point is the one through the others and a term of Newton's form,
as both have the same values on `s` and the same leading coefficient. -/
theorem interpolate_insert (hx : x ∉ s) :
  Lagrange.interpolate (insert x s) id y
    = Lagrange.interpolate s id y + C (divided y (insert x s)) * Lagrange.nodal s id
  := by
  have hcard : (insert x s).card - 1 = s.card := by
    rw [Finset.card_insert_of_notMem hx, Nat.add_sub_cancel]
  have hdegree := degree_interpolate_lt y (insert x s)
  rw [Finset.card_insert_of_notMem hx] at hdegree
  apply eq_of_degree_sub_lt_of_eval_finset_eq s
  · rw [degree_lt_iff_coeff_zero]
    intro m hm
    have hsmall : (Lagrange.interpolate s id y).coeff m = 0 := by
      apply coeff_eq_zero_of_degree_lt
      apply (degree_interpolate_lt y s).trans_le
      exact_mod_cast hm
    rw [coeff_sub, coeff_add, coeff_C_mul, hsmall, zero_add]
    rcases hm.eq_or_lt with rfl | hlt
    · have hmonic := (Lagrange.nodal_monic (s := s) (v := id)).coeff_natDegree
      rw [Lagrange.natDegree_nodal] at hmonic
      rw [divided, hcard, hmonic, mul_one, sub_self]
    · have hnodal : (Lagrange.nodal s (id : α → α)).coeff m = 0 := by
        apply coeff_eq_zero_of_natDegree_lt
        rw [Lagrange.natDegree_nodal]
        exact hlt
      rw [hnodal, mul_zero, sub_zero]
      apply coeff_eq_zero_of_degree_lt
      apply hdegree.trans_le
      exact_mod_cast hlt
  · intro w hw
    have hnodal : (Lagrange.nodal s id).eval w = 0 := Lagrange.eval_nodal_at_node (v := id) hw
    rw [eval_interpolate y (Finset.mem_insert_of_mem hw), eval_add, eval_mul, hnodal, mul_zero,
      add_zero, eval_interpolate y hw]

/-- The divided differences over the abscissae in `s` and the first one of a list, the first two,
and so on. -/
noncomputable def dividedAlong (y : α → α) (s : Finset α) : List α → List α
  | [] => []
  | z :: zs => divided y (insert z s) :: dividedAlong y (insert z s) zs

/-- The last of the divided differences along a list is the one over all its abscissae. -/
theorem getLastD_dividedAlong (s : Finset α) (zs : List α) :
  (dividedAlong y s zs).getLastD (divided y s) = divided y (zs.toFinset ∪ s)
  := by
  induction zs generalizing s with
  | nil => rw [dividedAlong, List.getLastD_nil, List.toFinset_nil, Finset.empty_union]
  | cons z zs ih =>
    rw [dividedAlong, List.getLastD_cons, ih, List.toFinset_cons, Finset.insert_union,
      Finset.union_insert]

/-- The divided differences that end at a new abscissa `x` run along the abscissae before it as
those that end at the last of these do. An abscissa that the run has passed is one of `s` from there
on. -/
theorem differencesAt_eq (zs : List α) (hx : x ∉ s) (hdistinct : (x :: zs).Nodup)
    (hnew : ∀ z ∈ zs, z ∉ s) :
  differencesAt x (divided y (insert x s)) ((dividedAlong y s zs).zip zs)
    = dividedAlong y (insert x s) zs
  := by
  induction zs generalizing s with
  | nil => rfl
  | cons z zs ih =>
    rw [List.nodup_cons, List.mem_cons, not_or, List.nodup_cons] at hdistinct
    obtain ⟨⟨hxz, hxzs⟩, hzzs, hzs⟩ := hdistinct
    have hz := hnew z List.mem_cons_self
    have hx' : x ∉ insert z s := by
      rw [Finset.mem_insert, not_or]
      exact ⟨hxz, hx⟩
    have hnew' : ∀ w ∈ zs, w ∉ insert z s := by
      intro w hw
      rw [Finset.mem_insert, not_or]
      constructor
      · rintro rfl
        exact hzzs hw
      · apply hnew w (List.mem_cons_of_mem z hw)
    rw [dividedAlong, List.zip_cons_cons, differencesAt, dividedAlong]
    rw [← divided_insert_insert y hx hz hxz, Finset.insert_comm z x s,
      ih hx' (List.nodup_cons.mpr ⟨hxzs, hzs⟩) hnew']

end

/-! ### Tables -/

/-- Of the nodes in a list, the last one first, each has the divided differences of `y` along the
abscissae from its own back to the first one, and all abscissae differ. -/
inductive Tabulated (y : α → α) : List (Node α) → Prop where
  | nil : Tabulated y []
  | cons {n : Node α} {others : List (Node α)} (h : Tabulated y others)
      (hnew : n.x ∉ others.map Node.x)
      (hrow : n.row = dividedAlong y ∅ (n.x :: others.map Node.x)) : Tabulated y (n :: others)

section

variable {y : α → α} {nodes : List (Node α)}

theorem Tabulated.nodup (h : Tabulated y nodes) :
  (nodes.map Node.x).Nodup
  := by
  induction h with
  | nil => exact List.nodup_nil
  | cons _ hnew _ ih => exact List.nodup_cons.mpr ⟨hnew, ih⟩

/-- A new node keeps the table. -/
theorem Tabulated.add (h : Tabulated y nodes) {x : α} (hx : x ∉ nodes.map Node.x) :
  Tabulated y (⟨x, y x, newDifferences x (y x) nodes⟩ :: nodes)
  := by
  apply h.cons hx
  rw [Node.row, dividedAlong, insert_empty_eq, divided_singleton]
  congr 1
  cases h with
  | nil => rfl
  | @cons last others h hnew hrow =>
    have hdistinct : (x :: last.x :: others.map Node.x).Nodup :=
      List.nodup_cons.mpr ⟨hx, List.nodup_cons.mpr ⟨hnew, h.nodup⟩⟩
    have hempty : ∀ z ∈ last.x :: others.map Node.x, z ∉ (∅ : Finset α) :=
      fun z _ => Finset.notMem_empty z
    have hdifferences := differencesAt_eq y _ (Finset.notMem_empty x) hdistinct hempty
    rw [insert_empty_eq, divided_singleton, ← hrow] at hdifferences
    exact hdifferences

theorem coefficient_eq {n : Node α} {zs : List α} (h : n.row = dividedAlong y ∅ (n.x :: zs)) :
  n.coefficient = divided y (insert n.x zs.toFinset)
  := by
  rw [Node.row, dividedAlong, insert_empty_eq, List.cons.injEq] at h
  obtain ⟨hy, hdifferences⟩ := h
  rw [Node.coefficient, hy, hdifferences, getLastD_dividedAlong, Finset.union_singleton]

/-- Newton's form of the polynomial through the values at the abscissae of a table. -/
theorem Tabulated.foldr_eq (h : Tabulated y nodes) (x : α) :
  nodes.foldr (fun n (v, product) => (v + n.coefficient * product, product * (x - n.x))) (0, 1)
    = ((Lagrange.interpolate (nodes.map Node.x).toFinset id y).eval x,
      (Lagrange.nodal (nodes.map Node.x).toFinset id).eval x)
  := by
  induction h with
  | nil => simp
  | @cons n others _ hnew hrow ih =>
    have hnew' : n.x ∉ (others.map Node.x).toFinset := by
      rw [List.mem_toFinset]
      exact hnew
    rw [List.foldr_cons, ih, List.map_cons, List.toFinset_cons, interpolate_insert y hnew',
      ← coefficient_eq hrow, Lagrange.nodal_insert_eq_nodal hnew']
    simp [mul_comm]

end

/-! ### Samples that come in parts -/

section

variable {p : Newton α} {samples : List (α × α)}

/-- The interpolation `p` with the samples of a list as further nodes. -/
def addAll (p : Newton α) (samples : List (α × α)) : Except Failure (Newton α) :=
  samples.foldlM (fun p s => p.add s.1 s.2) p

/-- The interpolation of the samples `first`, to which the samples `more` are added. -/
def ofParts (first more : List (α × α)) : Except Failure (Newton α) := do
  (← ofSamples (first.map Prod.fst) (first.map Prod.snd)).addAll more

theorem ofParts_eq {first : List (α × α)} (h : first ≠ []) (more : List (α × α)) :
  ofParts first more = empty.addAll (first ++ more)
  := by
  have hlength : (first.map Prod.fst).length = (first.map Prod.snd).length := by
    rw [List.length_map, List.length_map]
  have hpairs : (first.map Prod.fst).zip (first.map Prod.snd) = first := by
    rw [List.zip_map']
    exact List.map_id first
  rw [ofParts, ofSamples, samples_eq hlength (mt List.map_eq_nil_iff.mp h), hpairs, addAll,
    List.foldlM_append]
  rfl

theorem add_eq {x : α} (hx : x ∉ p.nodes.map Node.x) (y : α) :
  p.add x y = .ok ⟨p.nodes ++ [⟨x, y, newDifferences x y p.nodes.reverse⟩]⟩
  := by
  rw [add, if_neg]
  simp only [List.any_eq_true, beq_eq, decide_eq_true_eq]
  rintro ⟨n, hn, rfl⟩
  exact hx (List.mem_map_of_mem hn)

/-- The nodes of `p` have the abscissae `xs`, in this order, and the values of `y` there. -/
structure Interpolates (p : Newton α) (y : α → α) (xs : List α) : Prop where
  abscissae : p.nodes.map Node.x = xs
  tabulated : Tabulated y p.nodes.reverse

theorem Interpolates.add {y : α → α} {xs : List α} (h : Interpolates p y xs) {x : α}
    (hx : x ∉ xs) :
  ∃ p', p.add x (y x) = .ok p' ∧ Interpolates p' y (xs ++ [x])
  := by
  rw [← h.abscissae] at hx
  refine ⟨_, add_eq hx (y x), ?_, ?_⟩
  · rw [List.map_append, h.abscissae, List.map_singleton]
  · rw [List.reverse_append, List.reverse_singleton]
    apply h.tabulated.add
    rw [List.map_reverse, List.mem_reverse]
    exact hx

theorem Interpolates.addAll {y : α → α} {xs : List α} (h : Interpolates p y xs)
    (hy : ∀ s ∈ samples, y s.1 = s.2) (hdistinct : (xs ++ samples.map Prod.fst).Nodup) :
  ∃ p', p.addAll samples = .ok p' ∧ Interpolates p' y (xs ++ samples.map Prod.fst)
  := by
  induction samples generalizing p xs with
  | nil =>
    use p, rfl
    rw [List.map_nil, List.append_nil]
    exact h
  | cons s samples ih =>
    rw [List.forall_mem_cons] at hy
    rw [List.map_cons, List.append_cons] at hdistinct ⊢
    have hs : s.1 ∉ xs := by
      intro hmem
      have hdisjoint := List.disjoint_of_nodup_append (List.nodup_append.mp hdistinct).1
      exact hdisjoint hmem (List.mem_singleton_self s.1)
    obtain ⟨p₁, hp₁, h₁⟩ := h.add hs
    obtain ⟨p', hp', h'⟩ := ih h₁ hy.2 hdistinct
    use p'
    rw [Newton.addAll, List.foldlM_cons, ← hy.1, hp₁]
    exact ⟨hp', h'⟩

theorem interpolates_empty (y : α → α) :
  Interpolates empty y []
  := ⟨rfl, .nil⟩

theorem Interpolates.eval_eq {y : α → α} {xs : List α} (h : Interpolates p y xs) (x : α) :
  p.eval x = (Lagrange.interpolate xs.toFinset id y).eval x
  := by
  rw [eval, List.foldl_eq_foldr_reverse]
  rw [h.tabulated.foldr_eq x]
  rw [List.map_reverse, List.toFinset_reverse, h.abscissae]

/-- The ordinates of samples with different abscissae are the values of a function. -/
theorem exists_values (h : (samples.map Prod.fst).Nodup) :
  ∃ y : α → α, ∀ s ∈ samples, y s.1 = s.2
  := by
  induction samples with
  | nil => exact ⟨id, List.forall_mem_nil _⟩
  | cons s samples ih =>
    obtain ⟨hs, hsamples⟩ := List.nodup_cons.mp h
    obtain ⟨y, hy⟩ := ih hsamples
    use Function.update y s.1 s.2
    rw [List.forall_mem_cons, Function.update_self]
    use rfl
    intro t ht
    rw [Function.update_of_ne, hy t ht]
    rintro heq
    apply hs
    rw [← heq]
    exact List.mem_map_of_mem ht

/-! ### The polynomial -/

/-- The polynomial `q` has a degree less than the number of the samples, and goes through them. -/
structure Through (samples : List (α × α)) (q : α[X]) : Prop where
  degree_lt : q.degree < samples.length
  eval_eq : ∀ s ∈ samples, q.eval s.1 = s.2

/-- There is one polynomial of low degree through samples with different abscissae. -/
theorem through_iff {y : α → α} (hy : ∀ s ∈ samples, y s.1 = s.2)
    (hdistinct : (samples.map Prod.fst).Nodup) {q : α[X]} :
  Through samples q ↔ q = Lagrange.interpolate (samples.map Prod.fst).toFinset id y
  := by
  have hcard : (samples.map Prod.fst).toFinset.card = samples.length := by
    rw [List.toFinset_card_of_nodup hdistinct, List.length_map]
  have hiff := Lagrange.eq_interpolate_iff (s := (samples.map Prod.fst).toFinset) y (f := q)
    (Function.injective_id (α := α)).injOn
  rw [← hiff, hcard]
  constructor
  · intro h
    use h.degree_lt
    intro x hx
    rw [List.mem_toFinset, List.mem_map] at hx
    obtain ⟨s, hs, rfl⟩ := hx
    rw [id, h.eval_eq s hs, hy s hs]
  · rintro ⟨hdegree, heval⟩
    use hdegree
    intro s hs
    rw [← hy s hs]
    apply heval s.1
    rw [List.mem_toFinset]
    exact List.mem_map_of_mem hs

theorem ofParts_interpolates {y : α → α} {first more : List (α × α)} (hfirst : first ≠ [])
    (hy : ∀ s ∈ first ++ more, y s.1 = s.2) (hdistinct : ((first ++ more).map Prod.fst).Nodup) :
  ∃ p, ofParts first more = .ok p ∧ Interpolates p y ((first ++ more).map Prod.fst)
  := by
  rw [ofParts_eq hfirst]
  exact (interpolates_empty y).addAll hy hdistinct

/-- With exact scalars, samples with different abscissae, in any order, some of which are given at
once and the others one after the other, have an interpolation. It has a node for each sample, in
order, and its value is everywhere that of the one polynomial through the samples whose degree is
less than their number. Another order and other parts make no difference to its values. -/
theorem ofParts_unique_polynomial (first more : List (α × α)) (hfirst : first ≠ [])
    (hdistinct : ((first ++ more).map Prod.fst).Nodup) :
  ∃ p q, ofParts first more = .ok p
    ∧ p.nodes.map Node.x = (first ++ more).map Prod.fst
    ∧ Through (first ++ more) q
    ∧ (∀ x, p.eval x = q.eval x)
    ∧ (∀ s ∈ first ++ more, p.eval s.1 = s.2)
    ∧ (∀ q', Through (first ++ more) q' → q' = q)
    ∧ ∀ first' more', first' ≠ [] → (first' ++ more').Perm (first ++ more) →
        ∃ p', ofParts first' more' = .ok p' ∧ ∀ x, p'.eval x = p.eval x
  := by
  obtain ⟨y, hy⟩ := exists_values hdistinct
  obtain ⟨p, hp, hinterpolates⟩ := ofParts_interpolates hfirst hy hdistinct
  have hthrough := fun q => through_iff (q := q) hy hdistinct
  have hq := (hthrough _).mpr rfl
  refine ⟨p, _, hp, hinterpolates.abscissae, hq, hinterpolates.eval_eq, ?_, ?_, ?_⟩
  · intro s hs
    rw [hinterpolates.eval_eq, hq.eval_eq s hs]
  · intro q' hq'
    exact (hthrough q').mp hq'
  · intro first' more' hfirst' hperm
    have hperm' := hperm.map Prod.fst
    obtain ⟨p', hp', hinterpolates'⟩ := ofParts_interpolates hfirst'
      (fun s hs => hy s (hperm.mem_iff.mp hs)) (hperm'.nodup_iff.mpr hdistinct)
    use p', hp'
    intro x
    rw [hinterpolates'.eval_eq, hinterpolates.eval_eq, List.toFinset_eq_of_perm _ _ hperm']

end

/-- Four samples of a cube, in no order, two of which are added later, and the same in another order
and in other parts. -/
theorem ofParts_unique_polynomial_cube :
  let first : List (ℚ × ℚ) := [(2, 8), (-1, -1)]
  let more : List (ℚ × ℚ) := [(3, 27), (0, 0)]
  first ≠ []
    ∧ ((first ++ more).map Prod.fst).Nodup
    ∧ ∃ p, ofParts first more = .ok p
      ∧ (∀ x, p.eval x = x ^ 3)
      ∧ ∃ p' : Newton ℚ, ofParts [(0, 0), (2, 8), (3, 27)] [(-1, -1)] = .ok p'
        ∧ ∀ x, p'.eval x = x ^ 3
  := by
  intro first more
  have hfirst : first ≠ [] := List.cons_ne_nil _ _
  have hdistinct : ((first ++ more).map Prod.fst).Nodup := by decide +kernel
  obtain ⟨p, q, hp, -, hq, heval, -, hunique, hparts⟩ :=
    ofParts_unique_polynomial first more hfirst hdistinct
  have hcube : Through (first ++ more) (X ^ 3 : ℚ[X]) := by
    constructor
    · rw [degree_X_pow]
      decide
    · simp only [eval_pow, eval_X]
      decide +kernel
  have heval' : ∀ x, p.eval x = x ^ 3 := by
    intro x
    rw [heval, ← hunique _ hcube, eval_pow, eval_X]
  obtain ⟨p', hp', hsame⟩ := hparts [(0, 0), (2, 8), (3, 27)] [(-1, -1)] (List.cons_ne_nil _ _)
    (by decide +kernel)
  refine ⟨hfirst, hdistinct, p, hp, heval', p', hp', ?_⟩
  intro x
  rw [hsame, heval']

end Numerics.Newton
