import Numerics.Mat.Basic

/-!
# Checked access

Rows, entries and axes by numbers that may be out of range, and the quotient of a matrix of machine
integers, which has no value for the divisor zero. An `EntryError` says what was wrong.

A matrix is addressed by its column first: of two numbers that are out of range the column is the
one reported, and a matrix without columns has an empty row at every number.
-/

namespace Numerics

/-- Why an operation on the entries of a vector or a matrix has no value. -/
inductive EntryError where
  /-- There are `size` entries, and none at `index`. -/
  | outOfBounds (size index : Nat)
  /-- An integer was divided by zero. -/
  | divisionByZero
deriving DecidableEq

/-- An error in words. -/
def EntryError.message : EntryError → String
  | .outOfBounds size index =>
    "index out of bounds: the len is " ++ toString size ++ " but the index is " ++ toString index
  | .divisionByZero => "attempt to divide by zero"

/-- The number `i` as an index below `n`. -/
def checkIndex (n i : Nat) : Except EntryError (Fin n) :=
  if h : i < n then .ok ⟨i, h⟩ else .error (.outOfBounds n i)

theorem checkIndex_of_lt {n i : Nat} (h : i < n) :
  checkIndex n i = .ok ⟨i, h⟩
  := dif_pos h

theorem checkIndex_of_not_lt {n i : Nat} (h : ¬ i < n) :
  checkIndex n i = .error (.outOfBounds n i)
  := dif_neg h

variable {α : Type} {m n : Nat}

/-- The unit vector of length `n` along the axis with the number `i`. -/
def Vec.axisAt [Zero α] [One α] (n i : Nat) : Except EntryError (Vec α n) := do
  let i ← checkIndex n i
  return Vec.axis i

namespace Mat

/-- The row of `a` with the number `i`. -/
def rowAt (a : Mat α m n) (i : Nat) : Except EntryError (Vec α n) :=
  if h : n = 0 then
    .ok (Vec.ofFn fun j => absurd j.isLt (by omega))
  else do
    let i ← checkIndex m i
    return a.row i

/-- The entry of `a` in the row with the number `i` and the column with the number `j`. -/
def entryAt (a : Mat α m n) (i j : Nat) : Except EntryError α := do
  let j ← checkIndex n j
  let i ← checkIndex m i
  return a i j

/-- The matrix `a` with `x` in the place of the entry with the numbers `i` and `j`. -/
def setAt (a : Mat α m n) (i j : Nat) (x : α) : Except EntryError (Mat α m n) := do
  let j ← checkIndex n j
  let i ← checkIndex m i
  return a.set i j x

/-- The matrix `a` with `v` in the place of the column with the number `j`. -/
def setColAt (a : Mat α m n) (j : Nat) (v : Vec α m) : Except EntryError (Mat α m n) := do
  let j ← checkIndex n j
  return a.setCol j v

/-- The integer matrix `a` divided by `s`, entry by entry. Without entries nothing is divided, so
that zero is no error. -/
def integerQuotient (a : Mat Int64 m n) (s : Int64) : Except EntryError (Mat Int64 m n) :=
  if s = 0 ∧ 0 < m ∧ 0 < n then .error .divisionByZero else .ok (a / s)

end Mat

end Numerics
