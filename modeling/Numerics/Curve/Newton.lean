import Numerics.Curve.Samples
import Numerics.Scalar.Basic

/-!
# Interpolation in Newton's form

The polynomial through some nodes is a sum of divided differences times products of the distances
from the nodes before. A `Newton` interpolation holds its nodes in the order in which they were
added, each with the divided differences that end at it. Those of a new node follow from those of
the last node alone, so `Newton.add` adds one node at a time and leaves the others as they are.

Nodes need not be sorted, but their abscissae have to differ.
-/

namespace Numerics

open Curve

namespace Newton

/-- A node of an interpolation. -/
structure Node (α : Type) where
  x : α
  y : α
  /-- The divided differences of first and higher order that end at this node. -/
  differences : List α

variable {α : Type} [Scalar α]

/-- The divided differences of all orders that end at `n`, the ordinate first. -/
def Node.row (n : Node α) : List α :=
  n.y :: n.differences

/-- The divided difference of the highest order that ends at `n`. -/
def Node.coefficient (n : Node α) : α :=
  n.differences.getLastD n.y

/-- The divided differences that end at the new abscissa `x`, of higher order than `lower`, which
ends there too. Each is given by a pair: a divided difference that ends at the node before, and the
first abscissa of the range over which the new one extends. -/
def differencesAt (x : α) : (lower : α) → List (α × α) → List α
  | _, [] => []
  | lower, (before, first) :: rest =>
    let d := (lower - before) / (x - first)
    d :: differencesAt x d rest

/-- The divided differences that end at a new node, given the nodes before it, the last one first.
-/
def newDifferences (x y : α) : List (Node α) → List α
  | [] => []
  | last :: others =>
    differencesAt x y (last.row.zip (last.x :: others.map Node.x))

end Newton

/-- The polynomial through a list of nodes. -/
structure Newton (α : Type) where
  /-- The nodes, in the order in which they were added. -/
  nodes : List (Newton.Node α)

namespace Newton

variable {α : Type} [Scalar α]

/-- The interpolation without nodes. -/
def empty : Newton α :=
  ⟨[]⟩

/-- The interpolation `p` with one more node, whose abscissa has to be new. -/
def add (p : Newton α) (x y : α) : Except Failure (Newton α) :=
  if p.nodes.any (fun n => n.x == x) then
    .error .duplicateNode
  else
    .ok ⟨p.nodes ++ [⟨x, y, newDifferences x y p.nodes.reverse⟩]⟩

/-- The interpolation of the samples with the abscissae `xs` and the ordinates `ys`. -/
def ofSamples (xs ys : List α) : Except Failure (Newton α) := do
  (← samples xs ys).foldlM (fun p (x, y) => p.add x y) empty

/-- The value of `p` at `x`. -/
def eval (p : Newton α) (x : α) : α :=
  (p.nodes.foldl (fun (y, product) n => (y + n.coefficient * product, product * (x - n.x)))
    ((0, 1) : α × α)).1

/-- The coefficients of Newton's form of `p`. -/
def coefficients (p : Newton α) : List α :=
  p.nodes.map Node.coefficient

end Newton

end Numerics
