import Numerics.Scalar.Basic

/-!
# Vectors

`Vec α n` is the type of vectors of `n` entries in `α`. A vector `v` is read as a function of its
index, as in `v i`, and two vectors with the same entries are equal. Beside every operation a lemma
says what its entries are; nothing else about a vector is needed anywhere.

The entries may be of any type: vectors of numbers have an arithmetic, and vectors of functions,
rows or indices do not.
-/

namespace Numerics

/-- A vector of `n` entries in `α`. -/
structure Vec (α : Type) (n : Nat) where
  /-- The entries, in order. -/
  entries : Vector α n

namespace Vec

variable {α : Type} {n : Nat}

/-- The entry of `v` at `i`. -/
def get (v : Vec α n) (i : Fin n) : α :=
  v.entries[i]

instance : CoeFun (Vec α n) fun _ => Fin n → α :=
  ⟨get⟩

/-- The vector with the entries `f i`. -/
def ofFn (f : Fin n → α) : Vec α n :=
  ⟨Vector.ofFn f⟩

@[simp]
theorem get_ofFn (f : Fin n → α) (i : Fin n) :
  (ofFn f) i = f i
  := by
  simp [ofFn, get]

/-- A vector is determined by its entries. -/
@[ext]
theorem ext {v w : Vec α n} (h : ∀ i, v i = w i) :
  v = w
  := by
  obtain ⟨v⟩ := v
  obtain ⟨w⟩ := w
  congr
  apply Vector.ext
  intro i hi
  apply h ⟨i, hi⟩

/-! ### Building vectors -/

/-- The vector all of whose entries are `a`. -/
def fill (a : α) : Vec α n :=
  ofFn fun _ => a

instance [Zero α] : Zero (Vec α n) :=
  ⟨fill 0⟩

/-- The unit vector along the axis `i`. -/
def axis [Zero α] [One α] (i : Fin n) : Vec α n :=
  ofFn fun j => if j = i then 1 else 0

/-- The vector `v` with `a` in the place of its entry at `i`. -/
def set (v : Vec α n) (i : Fin n) (a : α) : Vec α n :=
  ⟨v.entries.set i a i.isLt⟩

/-- The vector `v` with its entries at `i` and `j` exchanged. -/
def swap (v : Vec α n) (i j : Fin n) : Vec α n :=
  ⟨v.entries.swap i j i.isLt j.isLt⟩

/-- The vector `v` followed by the entry `a`. -/
def push (v : Vec α n) (a : α) : Vec α (n + 1) :=
  ⟨v.entries.push a⟩

/-- The entries of `v` as a list. -/
def toList (v : Vec α n) : List α :=
  v.entries.toList

@[simp]
theorem get_fill (a : α) (i : Fin n) :
  (fill a) i = a
  := get_ofFn _ i

@[simp]
theorem get_axis [Zero α] [One α] (i j : Fin n) :
  (axis i : Vec α n) j = if j = i then 1 else 0
  := get_ofFn _ j

theorem get_set (v : Vec α n) (i j : Fin n) (a : α) :
  (v.set i a) j = if i = j then a else v j
  := by
  simp [set, get, Vector.getElem_set, Fin.ext_iff]

theorem get_swap (v : Vec α n) (i j k : Fin n) :
  (v.swap i j) k = if k = i then v j else if k = j then v i else v k
  := by
  simp [swap, get, Vector.getElem_swap, Fin.ext_iff]

theorem get_push (v : Vec α n) (a : α) (i : Fin (n + 1)) :
  (v.push a) i = if h : i.val < n then v ⟨i, h⟩ else a
  := by
  simp [push, get, Vector.getElem_push]

@[simp]
theorem length_toList (v : Vec α n) :
  v.toList.length = n
  := v.entries.length_toList

/-! ### Arithmetic -/

instance [Add α] : Add (Vec α n) :=
  ⟨fun v w => ofFn fun i => v i + w i⟩

instance [Sub α] : Sub (Vec α n) :=
  ⟨fun v w => ofFn fun i => v i - w i⟩

/-- The opposite of a vector is its difference from zero, so none of its entries is the negative
zero that the opposite of a float can be. -/
instance [Zero α] [Sub α] : Neg (Vec α n) :=
  ⟨fun v => ofFn fun i => 0 - v i⟩

instance [Mul α] : HMul (Vec α n) α (Vec α n) :=
  ⟨fun v s => ofFn fun i => v i * s⟩

instance [Div α] : HDiv (Vec α n) α (Vec α n) :=
  ⟨fun v s => ofFn fun i => v i / s⟩

instance [BEq α] : BEq (Vec α n) :=
  ⟨fun v w => v.entries == w.entries⟩

@[simp]
theorem get_zero [Zero α] (i : Fin n) :
  (0 : Vec α n) i = 0
  := get_ofFn _ i

@[simp]
theorem get_add [Add α] (v w : Vec α n) (i : Fin n) :
  (v + w) i = v i + w i
  := get_ofFn _ i

@[simp]
theorem get_sub [Sub α] (v w : Vec α n) (i : Fin n) :
  (v - w) i = v i - w i
  := get_ofFn _ i

@[simp]
theorem get_neg [Zero α] [Sub α] (v : Vec α n) (i : Fin n) :
  (-v) i = 0 - v i
  := get_ofFn _ i

@[simp]
theorem get_mul [Mul α] (v : Vec α n) (s : α) (i : Fin n) :
  (v * s) i = v i * s
  := get_ofFn _ i

@[simp]
theorem get_div [Div α] (v : Vec α n) (s : α) (i : Fin n) :
  (v / s) i = v i / s
  := get_ofFn _ i

/-! ### Products and norms -/

/-- The sum of the products `v i * w i`, added to zero in the order of the indices. -/
def dot [Zero α] [Add α] [Mul α] (v w : Vec α n) : α :=
  Fin.foldl n (fun acc i => acc + v i * w i) 0

/-- The square of the length of `v`. -/
def normSquared [Zero α] [Add α] [Mul α] (v : Vec α n) : α :=
  v.dot v

variable [RealScalar α]

/-- The length of `v`. -/
def norm (v : Vec α n) : α :=
  sqrt v.normSquared

/-- The largest absolute value of an entry of `v`; entries that are not numbers do not count. -/
def maxAbs (v : Vec α n) : α :=
  Fin.foldl n (fun m i => maxNum m (abs (v i))) 0

end Vec

end Numerics
