import Numerics.Event

/-!
# Runs of a solver

A run ends with a result or with a `SolverError`, and has announced some events on the way. Runs
form a monad: the events of a run come before those of the run that goes on from its result, and
the events that precede an error are kept.
-/

namespace Numerics

/-- Why a search or a solver has no result. -/
inductive SolverError where
  /-- A linear system of the iteration has no unique solution. -/
  | singularSystem
  /-- An argument is unusable, such as a step of length zero. -/
  | invalidArgument
  /-- No bracket was found within the budget; the objective may be unbounded. -/
  | noBracket
  /-- The objective or an iterate is not a finite number. -/
  | notFinite
  /-- The damping was raised more often than its budget allows. -/
  | dampingUnsettled
  /-- The order of the scalars, some of which are no numbers, contradicts itself. -/
  | noOrder
deriving DecidableEq

/-- An error in words. -/
def SolverError.message : SolverError → String
  | .singularSystem => "singular system in iteration"
  | .invalidArgument => "invalid argument"
  | .noBracket => "no bracket found; objective may be unbounded"
  | .notFinite => "computed value is NaN or infinity"
  | .dampingUnsettled => "damping did not settle"
  | .noOrder =>
    "user-provided comparison function does not correctly implement a total order"

/-- A run over the scalars `α` with a result in `β`. -/
@[ext]
structure Run (α β : Type) where
  /-- How the run ended. -/
  outcome : Except SolverError β
  /-- What was announced, in order. -/
  events : List (Event α)

namespace Run

variable {α β γ : Type}

/-- The run that ends with `b`, without an event. -/
def result (b : β) : Run α β :=
  ⟨.ok b, []⟩

/-- The run that ends with the error `e`, without an event. -/
def fail (e : SolverError) : Run α β :=
  ⟨.error e, []⟩

/-- The run that announces `e`. -/
def announce (e : Event α) : Run α Unit :=
  ⟨.ok (), [e]⟩

/-- A computation without events, as a run. -/
def ofExcept (r : Except SolverError β) : Run α β :=
  ⟨r, []⟩

/-- The run `r`, followed by `f` at its result if it has one. -/
def andThen (r : Run α β) (f : β → Run α γ) : Run α γ :=
  match r.outcome with
  | .ok b =>
    let next := f b
    ⟨next.outcome, r.events ++ next.events⟩
  | .error e => ⟨.error e, r.events⟩

instance : Monad (Run α) where
  pure := result
  bind := andThen

instance : MonadLift (Except SolverError) (Run α) :=
  ⟨ofExcept⟩

/-! ### Laws -/

theorem bind_of_ok {r : Run α β} {b : β} (h : r.outcome = .ok b) (f : β → Run α γ) :
  r >>= f = ⟨(f b).outcome, r.events ++ (f b).events⟩
  := by
  change andThen r f = _
  rw [andThen, h]

theorem bind_of_error {r : Run α β} {e : SolverError} (h : r.outcome = .error e)
    (f : β → Run α γ) :
  r >>= f = ⟨.error e, r.events⟩
  := by
  change andThen r f = _
  rw [andThen, h]

instance : LawfulMonad (Run α) :=
  LawfulMonad.mk' (Run α)
    (by
      intro β r
      obtain ⟨outcome, events⟩ := r
      cases outcome with
      | ok b =>
        change Run.mk (.ok b) (events ++ []) = _
        rw [List.append_nil]
      | error e => rfl)
    (by
      intro β γ b f
      rfl)
    (by
      intro β γ δ r f g
      obtain ⟨outcome, events⟩ := r
      cases outcome with
      | error e => rfl
      | ok b =>
        change andThen ⟨(f b).outcome, events ++ (f b).events⟩ g
          = ⟨(andThen (f b) g).outcome, events ++ (andThen (f b) g).events⟩
        unfold andThen
        cases (f b).outcome with
        | error e => rfl
        | ok c =>
          dsimp only
          rw [List.append_assoc])

end Run

end Numerics
