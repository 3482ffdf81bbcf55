import Numerics.Index
import Numerics.Vec

/-!
# Matrices

`Mat α m n` is the type of matrices of `m` rows and `n` columns with entries in `α`. A matrix `a`
is read as a function of a row and a column index, as in `a i j`, and two matrices with the same
entries are equal. As for vectors, every operation is given by its entries.

A product `a * b` is filled in column by column: to each of its columns the columns of `a` are added
in order, multiplied by the entries of that column of `b`. So its entry at `i` and `k` is the sum of
`a i j * b j k`, added to zero in the order of `j`, by `get_product`; the product `a.mulVec v` of a
matrix and a column does the same.
-/

namespace Numerics

/-- A matrix of `m` rows and `n` columns with entries in `α`. -/
structure Mat (α : Type) (m n : Nat) where
  /-- The rows, in order. -/
  rows : Vec (Vec α n) m

namespace Mat

variable {α : Type} {m n p : Nat}

/-- The row of `a` at `i`. -/
def row (a : Mat α m n) (i : Fin m) : Vec α n :=
  a.rows i

/-- The entry of `a` in the row `i` and the column `j`. -/
def get (a : Mat α m n) (i : Fin m) (j : Fin n) : α :=
  a.row i j

instance : CoeFun (Mat α m n) fun _ => Fin m → Fin n → α :=
  ⟨get⟩

/-- The matrix with the rows `r i`. -/
def ofRows (r : Fin m → Vec α n) : Mat α m n :=
  ⟨Vec.ofFn r⟩

/-- The matrix with the entries `f i j`. -/
def ofFn (f : Fin m → Fin n → α) : Mat α m n :=
  ofRows fun i => Vec.ofFn (f i)

@[simp]
theorem row_ofRows (r : Fin m → Vec α n) (i : Fin m) :
  (ofRows r).row i = r i
  := Vec.get_ofFn r i

@[simp]
theorem get_ofRows (r : Fin m → Vec α n) (i : Fin m) (j : Fin n) :
  (ofRows r) i j = r i j
  := by
  rw [get, row_ofRows]

@[simp]
theorem get_ofFn (f : Fin m → Fin n → α) (i : Fin m) (j : Fin n) :
  (ofFn f) i j = f i j
  := by
  rw [ofFn, get_ofRows, Vec.get_ofFn]

theorem get_row (a : Mat α m n) (i : Fin m) (j : Fin n) :
  a.row i j = a i j
  := rfl

/-- A matrix is determined by its entries. -/
@[ext]
theorem ext {a b : Mat α m n} (h : ∀ i j, a i j = b i j) :
  a = b
  := by
  obtain ⟨a⟩ := a
  obtain ⟨b⟩ := b
  congr
  apply Vec.ext
  intro i
  apply Vec.ext
  intro j
  apply h i j

/-! ### Building matrices -/

instance [Zero α] : Zero (Mat α m n) :=
  ⟨ofFn fun _ _ => 0⟩

/-- The matrix with ones on its leading diagonal and zeros elsewhere; it need not be square. -/
def leading [Zero α] [One α] : Mat α m n :=
  ofFn fun i j => if i.val = j.val then 1 else 0

/-- The matrix `a` with rows and columns exchanged. -/
def transpose (a : Mat α m n) : Mat α n m :=
  ofFn fun i j => a j i

/-- The column of `a` at `j`. -/
def col (a : Mat α m n) (j : Fin n) : Vec α m :=
  Vec.ofFn fun i => a i j

/-- The matrix with the columns `cols`. -/
def ofCols (cols : Vec (Vec α m) n) : Mat α m n :=
  ofFn fun i j => cols j i

/-- The matrix `a` with `x` in the place of its entry in the row `i` and the column `j`. -/
def set (a : Mat α m n) (i : Fin m) (j : Fin n) (x : α) : Mat α m n :=
  ⟨a.rows.set i ((a.row i).set j x)⟩

/-- The matrix `a` with `v` in the place of its column at `j`. -/
def setCol (a : Mat α m n) (j : Fin n) (v : Vec α m) : Mat α m n :=
  ofRows fun i => (a.row i).set j (v i)

@[simp]
theorem get_zero [Zero α] (i : Fin m) (j : Fin n) :
  (0 : Mat α m n) i j = 0
  := get_ofFn _ i j

@[simp]
theorem get_leading [Zero α] [One α] (i : Fin m) (j : Fin n) :
  (leading : Mat α m n) i j = if i.val = j.val then 1 else 0
  := get_ofFn _ i j

@[simp]
theorem get_transpose (a : Mat α m n) (i : Fin n) (j : Fin m) :
  a.transpose i j = a j i
  := get_ofFn _ i j

@[simp]
theorem get_col (a : Mat α m n) (i : Fin m) (j : Fin n) :
  a.col j i = a i j
  := Vec.get_ofFn _ i

@[simp]
theorem get_ofCols (cols : Vec (Vec α m) n) (i : Fin m) (j : Fin n) :
  (ofCols cols) i j = cols j i
  := get_ofFn _ i j

theorem get_set (a : Mat α m n) (i k : Fin m) (j l : Fin n) (x : α) :
  (a.set i j x) k l = if i = k ∧ j = l then x else a k l
  := by
  rw [get, row, set, Vec.get_set]
  split
  case isTrue h =>
    subst h
    rw [Vec.get_set]
    simp [get]
  case isFalse h =>
    simp [h, get, row]

theorem get_setCol (a : Mat α m n) (j : Fin n) (v : Vec α m) (i : Fin m) (k : Fin n) :
  (a.setCol j v) i k = if j = k then v i else a i k
  := by
  rw [setCol, get_ofRows, Vec.get_set, get_row]

/-! ### Arithmetic -/

instance [Add α] : Add (Mat α m n) :=
  ⟨fun a b => ofFn fun i j => a i j + b i j⟩

instance [Sub α] : Sub (Mat α m n) :=
  ⟨fun a b => ofFn fun i j => a i j - b i j⟩

/-- The opposite of a matrix is its difference from zero, so none of its entries is the negative
zero that the opposite of a float can be. -/
instance [Zero α] [Sub α] : Neg (Mat α m n) :=
  ⟨fun a => ofFn fun i j => 0 - a i j⟩

instance [Mul α] : HMul (Mat α m n) α (Mat α m n) :=
  ⟨fun a s => ofFn fun i j => a i j * s⟩

instance [Div α] : HDiv (Mat α m n) α (Mat α m n) :=
  ⟨fun a s => ofFn fun i j => a i j / s⟩

instance [BEq α] : BEq (Mat α m n) :=
  ⟨fun a b => a.rows == b.rows⟩

/-- The matrix `c` with the column `j` of `a`, multiplied by `x`, added to its column `k`, one entry
after the other. -/
def addToCol [Add α] [Mul α] (c : Mat α m p) (k : Fin p) (a : Mat α m n) (j : Fin n) (x : α) :
    Mat α m p :=
  Fin.foldl m (fun c i => c.set i k (c i k + a i j * x)) c

instance [Zero α] [Add α] [Mul α] : HMul (Mat α m n) (Mat α n p) (Mat α m p) :=
  ⟨fun a b => Fin.foldl p (fun c k => Fin.foldl n (fun c j => c.addToCol k a j (b j k)) c) 0⟩

/-- The product of `a` and the column `v`. -/
def mulVec [Zero α] [Add α] [Mul α] (a : Mat α m n) (v : Vec α n) : Vec α m :=
  Vec.ofFn fun i => (a.row i).dot v

/-- The matrix with the entries `v i * w j`. -/
def outer [Mul α] (v : Vec α m) (w : Vec α n) : Mat α m n :=
  ofFn fun i j => v i * w j

@[simp]
theorem get_add [Add α] (a b : Mat α m n) (i : Fin m) (j : Fin n) :
  (a + b) i j = a i j + b i j
  := get_ofFn _ i j

@[simp]
theorem get_sub [Sub α] (a b : Mat α m n) (i : Fin m) (j : Fin n) :
  (a - b) i j = a i j - b i j
  := get_ofFn _ i j

@[simp]
theorem get_neg [Zero α] [Sub α] (a : Mat α m n) (i : Fin m) (j : Fin n) :
  (-a) i j = 0 - a i j
  := get_ofFn _ i j

@[simp]
theorem get_mul [Mul α] (a : Mat α m n) (s : α) (i : Fin m) (j : Fin n) :
  (a * s) i j = a i j * s
  := get_ofFn _ i j

@[simp]
theorem get_div [Div α] (a : Mat α m n) (s : α) (i : Fin m) (j : Fin n) :
  (a / s) i j = a i j / s
  := get_ofFn _ i j

/-- Adding to a column changes each of its entries once, and nothing else. -/
theorem get_addToCol [Add α] [Mul α] (c : Mat α m p) (k : Fin p) (a : Mat α m n) (j : Fin n) (x : α)
    (i : Fin m) (l : Fin p) :
  c.addToCol k a j x i l = if l = k then c i l + a i j * x else c i l
  := by
  have h : ∀ (i : Fin m) (l : Fin p), c.addToCol k a j x i l
      = if l = k ∧ i.val < m then c i l + a i j * x else c i l := by
    apply foldl_induction (P := fun r (d : Mat α m p) => ∀ (i : Fin m) (l : Fin p), d i l
      = if l = k ∧ i.val < r then c i l + a i j * x else c i l)
    · intro i l
      simp
    · intro r d hd i l
      rw [get_set, hd, hd]
      grind
  rw [h]
  simp

/-- What is added to a column of a matrix is added to each of its entries in the same order. -/
theorem get_foldl_addToCol [Add α] [Mul α] (c : Mat α m p) (k : Fin p) (a : Mat α m n) (v : Vec α n)
    (i : Fin m) (l : Fin p) :
  (Fin.foldl n (fun c j => c.addToCol k a j (v j)) c) i l
    = if l = k then Fin.foldl n (fun acc j => acc + a i j * v j) (c i l) else c i l
  := by
  split
  case isTrue h =>
    subst h
    apply foldl_hom (fun c : Mat α m p => c i l)
    intro c j
    rw [get_addToCol, if_pos rfl]
  case isFalse h =>
    apply foldl_induction (P := fun _ (d : Mat α m p) => d i l = c i l) rfl
    intro j d hd
    rw [get_addToCol, if_neg h, hd]

/-- An entry of a product is the sum of its terms, added to zero in order. -/
theorem get_product [Zero α] [Add α] [Mul α] (a : Mat α m n) (b : Mat α n p)
    (i : Fin m) (k : Fin p) :
  (a * b) i k = Fin.foldl n (fun acc j => acc + a i j * b j k) 0
  := by
  have h : ∀ l : Fin p, (a * b) i l
      = if l.val < p then Fin.foldl n (fun acc j => acc + a i j * b j l) 0 else 0 := by
    apply foldl_induction (P := fun r (c : Mat α m p) => ∀ l : Fin p, c i l
      = if l.val < r then Fin.foldl n (fun acc j => acc + a i j * b j l) 0 else 0)
    · intro l
      simp
    · intro r c hc l
      have hcol := get_foldl_addToCol c r a (b.col r) i l
      simp only [get_col] at hcol
      rw [hcol, hc]
      grind
  rw [h, if_pos k.isLt]

theorem get_mulVec [Zero α] [Add α] [Mul α] (a : Mat α m n) (v : Vec α n) (i : Fin m) :
  a.mulVec v i = Fin.foldl n (fun acc j => acc + a i j * v j) 0
  := Vec.get_ofFn _ i

@[simp]
theorem get_outer [Mul α] (v : Vec α m) (w : Vec α n) (i : Fin m) (j : Fin n) :
  outer v w i j = v i * w j
  := get_ofFn _ i j

/-! ### Size -/

variable [RealScalar α]

/-- The largest absolute value of an entry of `a`, looked for column by column; entries that are
not numbers do not count. -/
def maxAbs (a : Mat α m n) : α :=
  Fin.foldl n (fun acc j => Fin.foldl m (fun acc i => maxNum acc (abs (a i j))) acc) 0

/-- Whether every entry of `a` is a finite number. -/
def isFinite (a : Mat α m n) : Bool :=
  a.rows.toList.all fun r => r.toList.all RealScalar.isFinite

end Mat

/-- The vector `v` as a matrix of one column. -/
def Vec.column {α : Type} {n : Nat} (v : Vec α n) : Mat α n 1 :=
  Mat.ofFn fun i _ => v i

end Numerics
