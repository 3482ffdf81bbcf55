import Mathlib.Algebra.Order.Field.Basic
import Mathlib.Tactic.FinCases
import Numerics.Proofs.Mat.Matrix
import Numerics.Scalar.Machine

/-!
# Laws of products

A product is filled in column by column, and in any arithmetic its entry in a row and a column is
the left fold of the products of their entries, from zero and in order. So it is transposed by
exchanging the factors as soon as the multiplication of scalars is commutative.

Where the scalars are a commutative ring, products have the laws of `ProductLaws`, whatever the
sizes of the factors. Machine integers are such a ring, because they wrap.

A vector is read as a matrix of one row by `Vec.asRow`, and the transpose of that is the column.
-/

namespace Numerics

variable {α : Type} {m n p : Nat}

/-- The vector `v` as a matrix of one row. -/
def Vec.asRow (v : Vec α n) : Mat α 1 n :=
  Mat.ofRows fun _ => v

theorem Vec.get_asRow (v : Vec α n) (i : Fin 1) (j : Fin n) :
  v.asRow i j = v j
  := Mat.get_ofRows _ i j

namespace Mat

/-! ### Any arithmetic -/

section

variable [Zero α] [Add α] [Mul α]

/-- An entry of a product is the left fold of its terms. -/
theorem get_product_eq_foldl (a : Mat α m n) (b : Mat α n p) (i : Fin m) (k : Fin p) :
  (a * b) i k = ((List.finRange n).map fun j => a i j * b j k).foldl (· + ·) 0
  := by
  rw [get_product, Fin.foldl_eq_finRange_foldl, List.foldl_map]

theorem transpose_product (hcomm : ∀ x y : α, x * y = y * x) (a : Mat α m n) (b : Mat α n p) :
  (a * b).transpose = b.transpose * a.transpose
  := by
  ext k i
  rw [get_transpose, get_product, get_product]
  simp only [get_transpose, hcomm]

/-- The product of a row and a column has one entry. -/
theorem get_asRow_mul_transpose (v w : Vec α n) (i j : Fin 1) :
  (v.asRow * w.asRow.transpose) i j = v.dot w
  := by
  rw [get_product]
  simp only [get_transpose, Vec.get_asRow]
  rfl

/-- The product with a column is the column that `mulVec` finds. -/
theorem mul_transpose_asRow (a : Mat α m n) (v : Vec α n) :
  a * v.asRow.transpose = (a.mulVec v).asRow.transpose
  := by
  ext i j
  rw [get_product, get_transpose, Vec.get_asRow, get_mulVec]
  simp only [get_transpose, Vec.get_asRow]

end

/-! ### Commutative rings -/

/-- The laws of products, for all sizes that fit. -/
structure ProductLaws (α : Type) [Zero α] [One α] [Add α] [Mul α] : Prop where
  assoc : ∀ {m n p q : Nat} (a : Mat α m n) (b : Mat α n p) (c : Mat α p q),
    a * b * c = a * (b * c)
  left_distrib : ∀ {m n p : Nat} (a : Mat α m n) (b c : Mat α n p), a * (b + c) = a * b + a * c
  right_distrib : ∀ {m n p : Nat} (a b : Mat α m n) (c : Mat α n p), (a + b) * c = a * c + b * c
  identity_left : ∀ {m n : Nat} (a : Mat α m n), (identity : Mat α m m) * a = a
  identity_right : ∀ {m n : Nat} (a : Mat α m n), a * (identity : Mat α n n) = a
  outer_eq : ∀ {m n : Nat} (v : Vec α m) (w : Vec α n), outer v w = v.asRow.transpose * w.asRow

theorem add_mul [NonUnitalNonAssocSemiring α] (a b : Mat α m n) (c : Mat α n p) :
  (a + b) * c = a * c + b * c
  := by
  rw [← toMatrix_inj, toMatrix_mul, toMatrix_add, toMatrix_add, toMatrix_mul, toMatrix_mul,
    Matrix.add_mul]

/-- The product of a column and a row. -/
theorem outer_eq_mul [NonUnitalNonAssocSemiring α] (v : Vec α m) (w : Vec α n) :
  outer v w = v.asRow.transpose * w.asRow
  := by
  ext i j
  rw [get_outer, get_product, foldl_add, zero_add, Fin.sum_univ_one, get_transpose, Vec.get_asRow,
    Vec.get_asRow]

theorem productLaws [CommRing α] :
  ProductLaws α
  where
  assoc := mul_assoc
  left_distrib := mul_add
  right_distrib := add_mul
  identity_left := identity_mul
  identity_right := mul_identity
  outer_eq := outer_eq_mul

/-- Machine integers, which wrap, are a commutative ring. -/
@[reducible]
def commRingInt64 : CommRing Int64 where
  add_assoc := Int64.add_assoc
  zero_add := Int64.zero_add
  add_zero := Int64.add_zero
  add_comm := Int64.add_comm
  mul_assoc := Int64.mul_assoc
  one_mul := Int64.one_mul
  mul_one := Int64.mul_one
  mul_comm := Int64.mul_comm
  left_distrib _ _ _ := Int64.mul_add
  right_distrib _ _ _ := Int64.add_mul
  zero_mul _ := Int64.zero_mul
  mul_zero _ := Int64.mul_zero
  neg_add_cancel := Int64.add_left_neg
  sub_eq_add_neg := Int64.sub_eq_add_neg
  nsmul := nsmulRec
  zsmul := zsmulRec

theorem productLaws_int64 :
  ProductLaws Int64
  := @productLaws Int64 commRingInt64

/-- In any arithmetic an entry of a product is the left fold, from zero, of the products of the
entries of its row and of its column, in order; so the product with a column is the one of `mulVec`,
and the one of a row and a column is their `dot`. If the multiplication of scalars is commutative, a
product is transposed by transposing and exchanging the factors. Over a commutative ring products
are associative, distribute over sums on both sides, have the identity on both sides, and the
product of a column and a row is their `outer` product; the same is true of machine integers. -/
theorem product_laws :
  (∀ {α : Type} [Zero α] [Add α] [Mul α] {m n p : Nat} (a : Mat α m n) (b : Mat α n p)
      (i : Fin m) (k : Fin p),
      (a * b) i k = ((List.finRange n).map fun j => a i j * b j k).foldl (· + ·) 0)
    ∧ (∀ {α : Type} [Zero α] [Add α] [Mul α] {m n : Nat} (a : Mat α m n) (v : Vec α n),
      a * v.asRow.transpose = (a.mulVec v).asRow.transpose)
    ∧ (∀ {α : Type} [Zero α] [Add α] [Mul α] {n : Nat} (v w : Vec α n) (i j : Fin 1),
      (v.asRow * w.asRow.transpose) i j = v.dot w)
    ∧ (∀ {α : Type} [Zero α] [Add α] [Mul α], (∀ x y : α, x * y = y * x) →
      ∀ {m n p : Nat} (a : Mat α m n) (b : Mat α n p),
        (a * b).transpose = b.transpose * a.transpose)
    ∧ (∀ {α : Type} [CommRing α], ProductLaws α)
    ∧ ProductLaws Int64
  := by
  refine ⟨?_, ?_, ?_, ?_, productLaws, productLaws_int64⟩
  · intro α _ _ _ m n p a b i k
    apply get_product_eq_foldl
  · intro α _ _ _ m n a v
    apply mul_transpose_asRow
  · intro α _ _ _ n v w i j
    apply get_asRow_mul_transpose
  · intro α _ _ _ hcomm m n p a b
    apply transpose_product hcomm

/-- Machine integers in a product of factors that are not square, where one sum wraps. -/
theorem product_laws_rectangular :
  let a : Mat Int64 2 3 := ofFn ![![1, 2, 3], ![4, 9223372036854775807, 6]]
  let b : Mat Int64 3 1 := ofFn ![![1], ![2], ![-1]]
  let c : Mat Int64 1 2 := ofFn ![![5, -7]]
  (∀ x y : Int64, x * y = y * x)
    ∧ (a * b).transpose = b.transpose * a.transpose
    ∧ a * b * c = a * (b * c)
    ∧ a * b = ofFn ![![2], ![-4]]
  := by
  intro a b c
  obtain ⟨-, -, -, htranspose, -, hlaws⟩ := product_laws
  refine ⟨Int64.mul_comm, htranspose Int64.mul_comm a b, hlaws.assoc a b c, ?_⟩
  ext i j
  fin_cases i <;> fin_cases j <;> decide +kernel

end Mat

end Numerics
