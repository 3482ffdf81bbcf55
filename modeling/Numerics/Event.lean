import Numerics.Options

/-!
# Events

What a search or a solver announces while it runs. An `Event` has a `level`, a text `message`, and
named values `details`; a level of `warn` says that a budget or the progress gave out.
-/

namespace Numerics

/-- How much attention an event deserves. -/
inductive Level where
  | trace
  | debug
  | warn
deriving DecidableEq

/-- The name of a level. -/
def Level.name : Level → String
  | .trace => "trace"
  | .debug => "debug"
  | .warn => "warn"

/-- A value that an event reports. -/
inductive Detail (α : Type) where
  | count (n : Nat)
  | scalar (x : α)
  | flag (b : Bool)
  | mode (name : String)

/-- What happened. -/
inductive Event (α : Type) where
  /-- The search of an interval closed in on a minimum. -/
  | intervalSettled (iterations : Nat)
  /-- The search of an interval spent its budget. -/
  | intervalUnsettled (budget : Nat)
  /-- The root search made a small step. -/
  | rootSettled (iterations : Nat)
  /-- The root search spent its budget. -/
  | rootUnsettled (budget : Nat)
  /-- A line search along the steepest descent made no progress. -/
  | descentStalled (iterations : Nat) (gradientNorm : α)
  /-- An unconstrained minimization ended at a minimum. -/
  | descentSettled (mode : Descent) (iterations : Nat) (value : α)
  /-- An unconstrained minimization ended elsewhere. -/
  | descentUnsettled (mode : Descent) (iterations : Nat)
  /-- A penalty round is over. -/
  | penaltyRound (mode : Penalty) (round : Nat) (weight violation : α) (settled : Bool)
  /-- A constrained minimization ended at a minimum of its last problem. -/
  | constrainedSettled (rounds : Nat)
  /-- A constrained minimization ended at a feasible point only. -/
  | constrainedFeasible (rounds : Nat)
  /-- A constrained minimization spent its budget. -/
  | constrainedUnsettled (budget : Nat)
  /-- No damping gave a smaller sum of squares. -/
  | dampingExhausted (iterations : Nat)
  /-- A fit ended at a minimum. -/
  | fitSettled (mode : Fitting) (iterations : Nat) (cost : α)
  /-- A fit ended elsewhere. -/
  | fitUnsettled (mode : Fitting) (budget : Nat)
  /-- A reweighting round is over. -/
  | reweighted (round : Nat) (scale change : α)
  /-- The weights of a robust fit settled. -/
  | weightsSettled (mode : Loss) (rounds : Nat)
  /-- The weights of a robust fit did not settle within the budget. -/
  | weightsUnsettled (budget : Nat)

namespace Event

variable {α : Type}

/-- The level of an event: a warning where the budget or the progress gave out. -/
def level : Event α → Level
  | penaltyRound .. | reweighted .. => .trace
  | intervalSettled .. | rootSettled .. | descentStalled .. | descentSettled ..
  | constrainedSettled .. | fitSettled .. | weightsSettled .. => .debug
  | intervalUnsettled .. | rootUnsettled .. | descentUnsettled .. | constrainedFeasible ..
  | constrainedUnsettled .. | dampingExhausted .. | fitUnsettled .. | weightsUnsettled .. => .warn

/-- The event in words. -/
def message : Event α → String
  | intervalSettled .. => "fminbnd converged"
  | intervalUnsettled .. => "fminbnd did not converge"
  | rootSettled .. => "fzero converged"
  | rootUnsettled .. => "fzero did not converge"
  | descentStalled .. => "conjugate gradient stalled"
  | descentSettled .. => "fminunc converged"
  | descentUnsettled .. => "fminunc did not converge"
  | penaltyRound .exterior .. => "exterior penalty"
  | penaltyRound .lagrangian .. => "augmented lagrangian"
  | constrainedSettled .. => "fmincon converged"
  | constrainedFeasible .. =>
    "fmincon reached feasibility but its last subproblem did not converge"
  | constrainedUnsettled .. => "fmincon did not reach feasibility"
  | dampingExhausted .. => "levenberg-marquardt damping exhausted"
  | fitSettled .. => "lsqnonlin converged"
  | fitUnsettled .. => "lsqnonlin did not converge"
  | reweighted .. => "irls reweight"
  | weightsSettled .. => "lsqnonlin_rkf converged"
  | weightsUnsettled .. => "lsqnonlin_rkf weights did not settle"

/-- The values of an event and their names, in order. -/
def details : Event α → List (String × Detail α)
  | intervalSettled iterations | rootSettled iterations => [("iterations", .count iterations)]
  | intervalUnsettled budget | rootUnsettled budget => [("max_iter", .count budget)]
  | descentStalled iterations norm =>
    [("iterations", .count iterations), ("gradient_norm", .scalar norm)]
  | descentSettled mode iterations value =>
    [("mode", .mode mode.name), ("iterations", .count iterations), ("fx", .scalar value)]
  | descentUnsettled mode iterations =>
    [("mode", .mode mode.name), ("iterations", .count iterations)]
  | penaltyRound _ round weight violation settled =>
    [("outer", .count round), ("mu", .scalar weight), ("violation", .scalar violation),
      ("inner_converged", .flag settled)]
  | constrainedSettled rounds | constrainedFeasible rounds =>
    [("outer_iterations", .count rounds)]
  | constrainedUnsettled budget => [("outer_iter", .count budget)]
  | dampingExhausted iterations => [("iterations", .count iterations)]
  | fitSettled mode iterations cost =>
    [("mode", .mode mode.name), ("iterations", .count iterations), ("cost", .scalar cost)]
  | fitUnsettled mode budget => [("mode", .mode mode.name), ("max_iter", .count budget)]
  | reweighted round scale change =>
    [("round", .count round), ("scale", .scalar scale), ("change", .scalar change)]
  | weightsSettled mode rounds => [("mode", .mode mode.name), ("rounds", .count rounds)]
  | weightsUnsettled budget => [("irls_iter", .count budget)]

end Event

end Numerics
