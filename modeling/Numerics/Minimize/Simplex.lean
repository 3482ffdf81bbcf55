import Numerics.Difference
import Numerics.Iteration
import Numerics.Minimize.Result
import Numerics.Sorting.Insertion

/-!
# The simplex of Nelder and Mead

`Simplex.minimum` minimizes a function of `n` variables with `n + 1` points that move downhill
together. In each round the vertices are sorted by their values, and the worst of them is reflected
in the centre of the others. A very good reflection is taken further, a bad one half way back, and
if that does not help either, all vertices move half way towards the best one.

The method compares values, and subtracts them only to see whether all vertices agree.
-/

namespace Numerics.Simplex

/-- A point and the value of the objective there. -/
structure Vertex (α : Type) (n : Nat) where
  x : Vec α n
  value : α

/-- The vertices of a simplex, one more than there are variables. -/
abbrev Vertices (α : Type) (n : Nat) := Vec (Vertex α n) (n + 1)

variable {α : Type} [RealScalar α] {n : Nat}

/-- The vertex at `x`. -/
def vertex (f : Vec α n → α) (x : Vec α n) : Vertex α n :=
  ⟨x, f x⟩

/-- The first simplex: `x₀`, and the point at the distance `edge` from it along each axis. -/
def start (f : Vec α n → α) (x₀ : Vec α n) (edge : α) : Vertices α n :=
  Vec.ofFn fun i =>
    if h : i = 0 then vertex f x₀ else vertex f (x₀.ahead (i.pred h) edge)

/-- The vertices in the order of their values. -/
def sorted (s : Vertices α n) : Vertices α n :=
  s.sort fun v w => v.value < w.value

/-- The first vertex, the best one of a sorted simplex. -/
def best (s : Vertices α n) : Vertex α n :=
  s 0

/-- The last vertex, the worst one of a sorted simplex. -/
def worst (s : Vertices α n) : Vertex α n :=
  s (Fin.last n)

/-- The last vertex but one, which is the best one if there are only two. -/
def secondWorst (s : Vertices α n) : Vertex α n :=
  s ⟨n - 1, by omega⟩

/-- The mean of all vertices but the last. -/
def centroid (s : Vertices α n) : Vec α n :=
  Fin.foldl (n - 1) (fun c i => c + (s ⟨i.val + 1, by omega⟩).x) (best s).x / (nat n : α)

/-- Whether all further vertices agree with the first up to `tol`, in value and in place. -/
def collapsed (s : Vertices α n) (tol : α) : Bool :=
  s.toList.tail.all fun v =>
    abs (v.value - (best s).value) ≤ tol && (v.x - (best s).x).maxAbs ≤ tol

/-- The simplex with `v` in the place of its last vertex. -/
def replaceWorst (s : Vertices α n) (v : Vertex α n) : Vertices α n :=
  s.set (Fin.last n) v

/-- The simplex with all vertices moved half way towards the first. -/
def shrink (f : Vec α n → α) (s : Vertices α n) : Vertices α n :=
  Vec.ofFn fun i =>
    if i = 0 then best s else vertex f ((best s).x + ((s i).x - (best s).x) * (half : α))

/-- The reflection of the worst vertex in the centre of the others. -/
def reflected (f : Vec α n → α) (s : Vertices α n) : Vertex α n :=
  vertex f (centroid s * (nat 2 : α) - (worst s).x)

/-- The point as far again beyond the reflection. -/
def expanded (f : Vec α n → α) (s : Vertices α n) : Vertex α n :=
  vertex f (centroid s * (nat 3 : α) - (worst s).x * (nat 2 : α))

/-- The point half way from the centre to `x`. -/
def contracted (f : Vec α n → α) (s : Vertices α n) (x : Vec α n) : Vertex α n :=
  vertex f (centroid s + (x - centroid s) * (half : α))

/-- The next simplex after a sorted one. -/
def improve (f : Vec α n → α) (s : Vertices α n) : Vertices α n :=
  let r := reflected f s
  if r.value < (best s).value then
    let e := expanded f s
    replaceWorst s (if e.value < r.value then e else r)
  else if r.value < (secondWorst s).value then
    replaceWorst s r
  else if r.value < (worst s).value then
    let c := contracted f s r.x
    if c.value ≤ r.value then replaceWorst s c else shrink f s
  else
    let c := contracted f s (worst s).x
    if c.value < (worst s).value then replaceWorst s c else shrink f s

/-- One round of the search, which ends it where all vertices agree. -/
def step (f : Vec α n → α) (tol : α) (i : Nat) (s : Vertices α n) :
    Round (Vertices α n) (Minimum α n) :=
  let s := sorted s
  if n = 0 ∨ collapsed s tol then
    .done ⟨(best s).x, (best s).value, i, true⟩
  else
    .next (improve f s)

/-- Minimize `f` from `x₀` with a simplex. -/
def minimum (f : Vec α n → α) (x₀ : Vec α n) (options : Options α) : Minimum α n :=
  Id.run <| iterate (m := Id) (fun i s => step f options.tolerance i s)
    (fun s =>
      let s := sorted s
      ⟨(best s).x, (best s).value, options.iterations, false⟩)
    options.iterations 0 (start f x₀ (options.spacing * nat 100))

end Numerics.Simplex
