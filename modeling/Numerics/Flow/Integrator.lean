import Numerics.Flow.Tableau

/-!
# Integrating differential equations

An `Integrator` follows a system of first-order equations in steps of a given length. Its `step`
takes one step, `solve` lists the states along the way and leaves the integrator where it is, and a
`Trajectory` takes steps when it is asked for states; all of them advance by `Moment.step`.
-/

namespace Numerics

/-- A system of `n` first-order equations: the slope at a time and a state. -/
abbrev VectorField (α : Type) (n : Nat) := α → Vec α n → Vec α n

variable {α : Type} [RealScalar α] {n s : Nat}

/-- The system with the equation `fs i` for the component `i`. -/
def VectorField.ofComponents (fs : Vec (α → Vec α n → α) n) : VectorField α n :=
  fun t x => Vec.ofFn fun i => fs i t x

/-- The state that the stage `i` looks at: `x`, moved by the slopes of the stages before it. -/
def Tableau.stageState (tab : Tableau α s) (x : Vec α n) (h : α) {i : Nat} (hi : i < s)
    (stages : Vec (Vec α n) i) : Vec α n :=
  Fin.foldl i (fun y j =>
    y + stages j * (h * tab.coupling ⟨i, hi⟩ ⟨j.val, Nat.lt_trans j.isLt hi⟩)) x

/-- The slopes at the first `i` stages. -/
def Tableau.stages (tab : Tableau α s) (f : VectorField α n) (t : α) (x : Vec α n) (h : α) :
    (i : Nat) → i ≤ s → Vec (Vec α n) i
  | 0, _ => ⟨#v[]⟩
  | i + 1, hi =>
    let before := tab.stages f t x h i (Nat.le_of_succ_le hi)
    before.push (f (t + tab.times ⟨i, hi⟩ * h) (tab.stageState x h hi before))

/-- The state after a step of length `h` from the state `x` at the time `t`. -/
def Tableau.advance (tab : Tableau α s) (f : VectorField α n) (t : α) (x : Vec α n) (h : α) :
    Vec α n :=
  let k := tab.stages f t x h s (Nat.le_refl s)
  x + Fin.foldl s (fun slope i => slope + k i * tab.weights i) (0 : Vec α n) * h

/-- A state at a time. -/
structure Moment (α : Type) (n : Nat) where
  time : α
  state : Vec α n

/-- The moment after a step of length `h` from `p`. -/
def Moment.step (tab : Tableau α s) (f : VectorField α n) (h : α) (p : Moment α n) : Moment α n :=
  ⟨p.time + h, tab.advance f p.time p.state h⟩

/-- Why an integrator could not step. -/
inductive IntegratorError where
  /-- It was never given a state. -/
  | noState
deriving DecidableEq

/-- The error in words. -/
def IntegratorError.message : IntegratorError → String
  | .noState => "integrator stepped before init"

/-- A system, a method, and where the integration stands. -/
structure Integrator (α : Type) (n s : Nat) where
  system : VectorField α n
  tableau : Tableau α s
  /-- The current moment, once there is one. -/
  moment : Option (Moment α n)

namespace Integrator

/-- An integrator that was given no state yet. -/
def unstarted (f : VectorField α n) (tab : Tableau α s) : Integrator α n s :=
  ⟨f, tab, none⟩

/-- The integrator at the state `x` and the time `t`, whatever came before. -/
def start (r : Integrator α n s) (t : α) (x : Vec α n) : Integrator α n s :=
  { r with moment := some ⟨t, x⟩ }

/-- The current time, or zero before the start. -/
def time (r : Integrator α n s) : α :=
  match r.moment with
  | none => 0
  | some p => p.time

/-- The current state, or zero before the start. -/
def state (r : Integrator α n s) : Vec α n :=
  match r.moment with
  | none => 0
  | some p => p.state

/-- The integrator after a step of length `h`. -/
def step (r : Integrator α n s) (h : α) : Except IntegratorError (Integrator α n s) :=
  match r.moment with
  | none => .error .noState
  | some p => .ok { r with moment := some (p.step r.tableau r.system h) }

/-- The state at a moment and those after one to `k` steps from there. -/
def statesFrom (tab : Tableau α s) (f : VectorField α n) (h : α) : Nat → Moment α n → List (Vec α n)
  | 0, p => [p.state]
  | k + 1, p => p.state :: statesFrom tab f h k (p.step tab f h)

@[simp]
theorem length_statesFrom (tab : Tableau α s) (f : VectorField α n) (h : α) (k : Nat)
    (p : Moment α n) :
  (statesFrom tab f h k p).length = k + 1
  := by
  induction k generalizing p with
  | zero => rfl
  | succ k ih => rw [statesFrom, List.length_cons, ih]

/-- The current state and those after one to `k` steps of length `h`; no step is taken. -/
def solve (r : Integrator α n s) (h : α) (k : Nat) : Except IntegratorError (List (Vec α n)) :=
  match r.moment with
  | none => .error .noState
  | some p => .ok (statesFrom r.tableau r.system h k p)

end Integrator

/-- An integrator that steps when asked, a limited number of times. -/
structure Trajectory (α : Type) (n s : Nat) where
  integrator : Integrator α n s
  /-- The length of a step. -/
  h : α
  /-- The number of steps left. -/
  remaining : Nat

/-- The trajectory of `k` steps of length `h` from the current moment. -/
def Integrator.trajectory (r : Integrator α n s) (h : α) (k : Nat) :
    Except IntegratorError (Trajectory α n s) :=
  match r.moment with
  | none => .error .noState
  | some _ => .ok ⟨r, h, k⟩

namespace Trajectory

/-- The state after the next step, or none if no step is left, and the trajectory after it. -/
def next (t : Trajectory α n s) : Option (Vec α n) × Trajectory α n s :=
  match t.remaining, t.integrator.step t.h with
  | k + 1, .ok r => (some r.state, { t with integrator := r, remaining := k })
  | _, _ => (none, t)

/-- The answers to several calls of `next` in a row, and the trajectory after them. -/
def take (t : Trajectory α n s) : Nat → List (Option (Vec α n)) × Trajectory α n s
  | 0 => ([], t)
  | k + 1 =>
    let (state, t) := t.next
    let (states, t) := take t k
    (state :: states, t)

end Trajectory

end Numerics
