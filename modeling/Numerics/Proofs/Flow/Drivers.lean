import Mathlib.Algebra.Order.Field.Basic
import Mathlib.Logic.Function.Iterate
import Numerics.Flow.Integrator
import Numerics.Proofs.Scalar.Exact
import Numerics.Proofs.Steps

/-!
# One course, three drivers

Whatever the arithmetic, an integrator that has a moment goes through the iterates of `Moment.step`,
and each of its drivers reads off a part of this course: `Integrator.step` moves along it,
`Integrator.solve` lists it, and a `Trajectory` moves along it as far as it is asked to.

A `Request` is what a user can ask of an integrator, and a `session` serves requests one after the
other. Before the first start every request fails and changes nothing, and a start makes a session
forget what came before it.
-/

namespace Numerics

variable {α : Type} [RealScalar α] {n s : Nat}

/-! ### The course -/

namespace Integrator

variable {f : VectorField α n} {tab : Tableau α s} {p : Moment α n} {h : α}

/-- The integrator after `k` steps of length `h`. -/
def steps (r : Integrator α n s) (h : α) : Nat → Except IntegratorError (Integrator α n s)
  | 0 => .ok r
  | k + 1 => r.steps h k >>= fun r => r.step h

/-- The steps of an integrator at the moment `p`. -/
theorem steps_eq (f : VectorField α n) (tab : Tableau α s) (p : Moment α n) (h : α) (k : Nat) :
  steps ⟨f, tab, some p⟩ h k = .ok ⟨f, tab, some ((Moment.step tab f h)^[k] p)⟩
  := by
  induction k with
  | zero => rfl
  | succ k ih =>
    rw [steps, ih, Function.iterate_succ_apply']
    rfl

/-! ### Lists of states -/

theorem statesFrom_eq_cons (k : Nat) :
  statesFrom tab f h k p = p.state :: (statesFrom tab f h k p).tail
  := by
  cases k <;> rfl

/-- A list of states holds those of the course. -/
theorem getElem?_statesFrom {k i : Nat} (hi : i ≤ k) :
  (statesFrom tab f h k p)[i]? = some ((Moment.step tab f h)^[i] p).state
  := by
  induction k generalizing i p with
  | zero =>
    obtain rfl := Nat.le_zero.mp hi
    rfl
  | succ k ih =>
    cases i with
    | zero => rfl
    | succ i => exact ih (Nat.le_of_succ_le_succ hi)

end Integrator

/-! ### Trajectories -/

namespace Trajectory

/-- A trajectory that is asked `m` times for one of its `k` states. -/
theorem take_eq (f : VectorField α n) (tab : Tableau α s) (p : Moment α n) (h : α) (k m : Nat) :
  take ⟨⟨f, tab, some p⟩, h, k⟩ m
    = (((Integrator.statesFrom tab f h k p).tail.take (min m k)).map some
          ++ List.replicate (m - min m k) none,
      ⟨⟨f, tab, some ((Moment.step tab f h)^[min m k] p)⟩, h, k - min m k⟩)
  := by
  induction m generalizing k p with
  | zero => simp [take]
  | succ m ih =>
    cases k with
    | zero =>
      have hnext : next ⟨⟨f, tab, some p⟩, h, 0⟩ = (none, ⟨⟨f, tab, some p⟩, h, 0⟩) := rfl
      rw [take, hnext]
      dsimp only
      rw [ih]
      simp [Integrator.statesFrom, List.replicate_succ]
    | succ k =>
      have hnext : next ⟨⟨f, tab, some p⟩, h, k + 1⟩
          = (some (p.step tab f h).state, ⟨⟨f, tab, some (p.step tab f h)⟩, h, k⟩) := rfl
      rw [take, hnext]
      dsimp only
      rw [ih, Integrator.statesFrom, List.tail_cons, Integrator.statesFrom_eq_cons]
      simp

end Trajectory

/-! ### Sessions -/

namespace Integrator

/-- What can be asked of an integrator. -/
inductive Request (α : Type) (n : Nat) where
  | start (t : α) (x : Vec α n)
  | step (h : α)
  | solve (h : α) (k : Nat)
  /-- A trajectory of `k` steps, which is asked for a state `m` times and then given up. -/
  | follow (h : α) (k m : Nat)

/-- What an integrator answers. -/
inductive Answer (α : Type) (n : Nat) where
  | started
  | state (x : Vec α n)
  | states (xs : List (Vec α n))
  | followed (xs : List (Option (Vec α n))) (remaining : Nat)

/-- The answer to a request, and the integrator after it. -/
def serve (r : Integrator α n s) :
    Request α n → Except IntegratorError (Answer α n × Integrator α n s)
  | .start t x => .ok (.started, r.start t x)
  | .step h => do
    let r ← r.step h
    return (.state r.state, r)
  | .solve h k => do
    let states ← r.solve h k
    return (.states states, r)
  | .follow h k m => do
    let t ← r.trajectory h k
    let (states, t) := t.take m
    return (.followed states t.remaining, t.integrator)

/-- The answers to requests that are made one after the other, and the integrator after them. A
request that fails leaves the integrator as it was. -/
def session (r : Integrator α n s) :
    List (Request α n) → List (Except IntegratorError (Answer α n)) × Integrator α n s
  | [] => ([], r)
  | request :: requests =>
    match r.serve request with
    | .ok (answer, r) =>
      let (answers, r) := r.session requests
      (.ok answer :: answers, r)
    | .error e =>
      let (answers, r) := r.session requests
      (.error e :: answers, r)

/-- A request in terms of starts and steps: a list of states asks for none, and a trajectory for as
many as it has and is asked for. -/
def Request.plain : Request α n → List (Request α n)
  | .start t x => [.start t x]
  | .step h => [.step h]
  | .solve _ _ => []
  | .follow h k m => List.replicate (min m k) (.step h)

variable {f : VectorField α n} {tab : Tableau α s} {p : Moment α n} {h : α}
  {r : Integrator α n s} {request : Request α n} {requests : List (Request α n)}

theorem serve_solve (f : VectorField α n) (tab : Tableau α s) (p : Moment α n) (h : α) (k : Nat) :
  serve ⟨f, tab, some p⟩ (.solve h k) = .ok (.states (statesFrom tab f h k p), ⟨f, tab, some p⟩)
  := rfl

theorem serve_follow (f : VectorField α n) (tab : Tableau α s) (p : Moment α n) (h : α)
    (k m : Nat) :
  serve ⟨f, tab, some p⟩ (.follow h k m)
    = .ok (.followed
        (((statesFrom tab f h k p).tail.take (min m k)).map some
          ++ List.replicate (m - min m k) none)
        (k - min m k),
      ⟨f, tab, some ((Moment.step tab f h)^[min m k] p)⟩)
  := by
  show Except.ok (Answer.followed (Trajectory.take ⟨⟨f, tab, some p⟩, h, k⟩ m).1 _, _) = _
  rw [Trajectory.take_eq]

/-- Before the first start every other request fails. -/
theorem serve_unstarted (f : VectorField α n) (tab : Tableau α s)
    (hrequest : ∀ t x, request ≠ .start t x) :
  (unstarted f tab).serve request = .error .noState
  := by
  cases request with
  | start t x => exact absurd rfl (hrequest t x)
  | step => rfl
  | solve => rfl
  | follow => rfl

/-- No request changes the system or the tableau. -/
theorem serve_eq_ok {answer : Answer α n} {r' : Integrator α n s}
    (h : r.serve request = .ok (answer, r')) :
  r' = { r with moment := r'.moment }
  := by
  obtain ⟨f, tab, moment⟩ := r
  cases request with
  | start t x =>
    cases h
    rfl
  | step h' =>
    cases moment with
    | none => cases h
    | some p =>
      cases h
      rfl
  | solve h' k =>
    cases moment with
    | none => cases h
    | some p =>
      cases h
      rfl
  | follow h' k m =>
    cases moment with
    | none => cases h
    | some p =>
      rw [serve_follow] at h
      cases h
      rfl

theorem session_append (r : Integrator α n s) (requests later : List (Request α n)) :
  r.session (requests ++ later)
    = ((r.session requests).1 ++ ((r.session requests).2.session later).1,
      ((r.session requests).2.session later).2)
  := by
  induction requests generalizing r with
  | nil => rfl
  | cons request requests ih =>
    rw [List.cons_append, session, session]
    cases r.serve request with
    | ok served =>
      dsimp only
      rw [ih]
      rfl
    | error e =>
      dsimp only
      rw [ih]
      rfl

theorem session_unstarted (f : VectorField α n) (tab : Tableau α s)
    (hrequests : ∀ request ∈ requests, ∀ t x, request ≠ .start t x) :
  (unstarted f tab).session requests
    = (requests.map fun _ => .error .noState, unstarted f tab)
  := by
  induction requests with
  | nil => rfl
  | cons request requests ih =>
    rw [List.forall_mem_cons] at hrequests
    rw [session, serve_unstarted f tab hrequests.1]
    dsimp only
    rw [ih hrequests.2]
    rfl

theorem session_keeps (r : Integrator α n s) (requests : List (Request α n)) :
  (r.session requests).2 = { r with moment := (r.session requests).2.moment }
  := by
  induction requests generalizing r with
  | nil => rfl
  | cons request requests ih =>
    rw [session]
    cases h : r.serve request with
    | ok served =>
      have hserved := serve_eq_ok h
      dsimp only
      rw [ih, hserved]
    | error e => apply ih

/-- A start makes a session forget what came before it. -/
theorem session_start (r : Integrator α n s) (history later : List (Request α n)) (t : α)
    (x : Vec α n) :
  r.session (history ++ .start t x :: later)
    = ((r.session history).1 ++ .ok .started :: ((r.start t x).session later).1,
      ((r.start t x).session later).2)
  := by
  have hstart : (r.session history).2.start t x = r.start t x := by
    rw [session_keeps]
    rfl
  rw [session_append, session, serve, hstart]

/-- Steps that are asked for one after the other. -/
theorem session_replicate_step (f : VectorField α n) (tab : Tableau α s) (p : Moment α n) (h : α)
    (k : Nat) :
  (session ⟨f, tab, some p⟩ (List.replicate k (.step h))).2
    = ⟨f, tab, some ((Moment.step tab f h)^[k] p)⟩
  := by
  induction k generalizing p with
  | zero => rfl
  | succ k ih => exact ih (p.step tab f h)

/-- A request comes to the same as the starts and steps that stand for it, also where the trajectory
does not start and they fail one by one. -/
theorem session_plain (r : Integrator α n s) (request : Request α n) :
  (r.session request.plain).2 = (r.session [request]).2
  := by
  obtain ⟨f, tab, moment⟩ := r
  cases request with
  | start t x => rfl
  | step h => rfl
  | solve h k => cases moment <;> rfl
  | follow h k m =>
    cases moment with
    | none =>
      have hrequests : ∀ request ∈ (Request.follow h k m : Request α n).plain,
          ∀ t x, request ≠ .start t x := by
        intro request hmem
        rw [List.eq_of_mem_replicate hmem]
        rintro t x ⟨⟩
      show ((unstarted f tab).session _).2 = unstarted f tab
      rw [session_unstarted f tab hrequests]
    | some p =>
      rw [Request.plain, session_replicate_step, session, serve_follow]
      rfl

/-- A session comes to the same as its starts and steps. -/
theorem session_flatMap_plain (r : Integrator α n s) (requests : List (Request α n)) :
  (r.session (requests.flatMap Request.plain)).2 = (r.session requests).2
  := by
  induction requests generalizing r with
  | nil => rfl
  | cons request requests ih =>
    have hcons := session_append r [request] requests
    rw [List.singleton_append] at hcons
    rw [List.flatMap_cons, session_append, hcons, session_plain]
    apply ih

/-! ### The drivers -/

/-- Whatever the arithmetic, the system and the tableau. At a moment, a list of `k + 1` states holds
those after no, one, …, `k` steps, and asking for it changes nothing; a trajectory of `k` steps that
is asked `m` times gives the states of that list after the first, then none, has the other steps
left, and leaves the integrator where as many steps do. Before the first start every other request
fails and changes nothing. After a start a session goes on as if nothing had come before it. And a
session of any requests leaves the integrator where its starts and steps alone do. -/
theorem drivers_agree (f : VectorField α n) (tab : Tableau α s) :
  (∀ (p : Moment α n) (h : α) (k : Nat), ∃ states,
      serve ⟨f, tab, some p⟩ (.solve h k) = .ok (.states states, ⟨f, tab, some p⟩)
        ∧ states.length = k + 1
        ∧ (∀ i ≤ k, ∃ r', steps ⟨f, tab, some p⟩ h i = .ok r' ∧ states[i]? = some r'.state)
        ∧ ∀ m, ∃ r', steps ⟨f, tab, some p⟩ h (min m k) = .ok r'
          ∧ serve ⟨f, tab, some p⟩ (.follow h k m)
            = .ok (.followed
                (((states.drop 1).take (min m k)).map some ++ List.replicate (m - min m k) none)
                (k - min m k),
              r'))
    ∧ (∀ requests : List (Request α n), (∀ request ∈ requests, ∀ t x, request ≠ .start t x) →
        (unstarted f tab).session requests
          = (requests.map fun _ => .error .noState, unstarted f tab))
    ∧ (∀ (history later : List (Request α n)) (t : α) (x : Vec α n),
        (unstarted f tab).session (history ++ .start t x :: later)
          = (((unstarted f tab).session history).1
              ++ .ok .started :: (session ⟨f, tab, some ⟨t, x⟩⟩ later).1,
            (session ⟨f, tab, some ⟨t, x⟩⟩ later).2))
    ∧ ∀ requests : List (Request α n),
        ((unstarted f tab).session (requests.flatMap Request.plain)).2
          = ((unstarted f tab).session requests).2
  := by
  refine ⟨?_, fun _ => session_unstarted f tab, ?_, session_flatMap_plain _⟩
  · intro p h k
    use statesFrom tab f h k p, serve_solve f tab p h k, length_statesFrom tab f h k p
    constructor
    · intro i hi
      use ⟨f, tab, some ((Moment.step tab f h)^[i] p)⟩, steps_eq f tab p h i
      exact getElem?_statesFrom hi
    · intro m
      use ⟨f, tab, some ((Moment.step tab f h)^[min m k] p)⟩, steps_eq f tab p h (min m k)
      rw [List.drop_one]
      exact serve_follow f tab p h k m
  · intro history later t x
    exact session_start (unstarted f tab) history later t x

/-- Requests to an integrator that was not started, and a list of states once it was. -/
theorem drivers_agree_growth :
  let f : VectorField ℚ 1 := fun _ x => x
  let requests : List (Request ℚ 1) := [.step 1, .solve 1 2, .follow 1 2 3]
  (∀ request ∈ requests, ∀ t x, request ≠ .start t x)
    ∧ (unstarted f .midpoint).session requests
      = ([.error .noState, .error .noState, .error .noState], unstarted f .midpoint)
    ∧ ∃ states, serve ⟨f, .midpoint, some ⟨0, Vec.fill 1⟩⟩ (.solve (1 / 2) 4)
        = .ok (.states states, ⟨f, .midpoint, some ⟨0, Vec.fill 1⟩⟩)
      ∧ states.length = 5
  := by
  intro f requests
  have hrequests : ∀ request ∈ requests, ∀ t x, request ≠ .start t x := by
    simp [requests]
  obtain ⟨hsolve, hunstarted, -, -⟩ := drivers_agree f Tableau.midpoint
  obtain ⟨states, hstates, hlength, -⟩ := hsolve ⟨0, Vec.fill 1⟩ (1 / 2) 4
  use hrequests, hunstarted requests hrequests, states

end Integrator

end Numerics
