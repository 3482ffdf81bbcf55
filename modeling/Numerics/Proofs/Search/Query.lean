import Numerics.Proofs.Iteration

/-!
# Queries

A search looks at its function only through the values that it asks for. `Query α β` is a
computation that asks for values of a function on `α`, one after the other, without the function:
it ends with a `β` or fails. Once a function `f` is given, the computation has an `answer f`, and
`asked f` are the points at which it asked for a value, in order.

Searches are stated as queries beside their definitions, so that a statement can speak of the points
they look at.
-/

namespace Numerics

/-- A computation that asks for values of a function on `α` and ends with a `β`, or fails. -/
inductive Query (α β : Type) where
  /-- The computation ends with `b`. -/
  | done (b : β)
  /-- The computation fails with `e`. -/
  | fail (e : SolverError)
  /-- The computation asks for the value at `x`, and goes on from it. -/
  | ask (x : α) (next : α → Query α β)

namespace Query

variable {α β γ σ ρ : Type}

/-- The computation `q`, followed by `k` at its result. -/
def andThen (q : Query α β) (k : β → Query α γ) : Query α γ :=
  match q with
  | done b => k b
  | fail e => fail e
  | ask x next => ask x fun v => (next v).andThen k

instance : Monad (Query α) where
  pure := done
  bind := andThen

/-- The value at `x`. -/
def value (x : α) : Query α α :=
  ask x done

/-- A computation that asks for nothing, as a query. -/
def ofExcept : Except SolverError β → Query α β
  | .ok b => done b
  | .error e => fail e

instance : MonadLift (Except SolverError) (Query α) :=
  ⟨ofExcept⟩

/-- What the computation ends with if the function is `f`. -/
def answer (f : α → α) : Query α β → Except SolverError β
  | done b => .ok b
  | fail e => .error e
  | ask x next => (next (f x)).answer f

/-- The points at which the computation asks for a value if the function is `f`, in order. -/
def asked (f : α → α) : Query α β → List α
  | done _ => []
  | fail _ => []
  | ask x next => x :: (next (f x)).asked f

variable (f : α → α)

@[simp]
theorem value_bind (x : α) (k : α → Query α β) :
  value x >>= k = ask x k
  := rfl

/-! ### Answers -/

@[simp]
theorem answer_ask (x : α) (next : α → Query α β) :
  (ask x next).answer f = (next (f x)).answer f
  := rfl

@[simp]
theorem answer_pure (b : β) :
  (pure b : Query α β).answer f = .ok b
  := rfl

@[simp]
theorem answer_ofExcept (x : Except SolverError β) :
  (ofExcept x).answer f = x
  := by
  cases x <;> rfl

@[simp]
theorem answer_bind (q : Query α β) (k : β → Query α γ) :
  (q >>= k).answer f = q.answer f >>= fun b => (k b).answer f
  := by
  induction q with
  | done b => rfl
  | fail e => rfl
  | ask x next ih => exact ih (f x)

theorem answer_iterate (step : Nat → σ → Query α (Round σ ρ)) (exhausted : σ → Query α ρ)
    (budget i : Nat) (s : σ) :
  (iterate step exhausted budget i s).answer f
    = iterate (fun i s => (step i s).answer f) (fun s => (exhausted s).answer f) budget i s
  := iterate_map (answer f) (answer_pure f) (answer_bind f) step exhausted budget i s

/-! ### Points -/

@[simp]
theorem asked_ask (x : α) (next : α → Query α β) :
  (ask x next).asked f = x :: (next (f x)).asked f
  := rfl

variable {f}

theorem asked_bind_of_ok {q : Query α β} {b : β} (h : q.answer f = .ok b) (k : β → Query α γ) :
  (q >>= k).asked f = q.asked f ++ (k b).asked f
  := by
  induction q with
  | done b' => cases h; rfl
  | fail e => cases h
  | ask x next ih => exact congrArg (List.cons x) (ih (f x) h)

section

variable {step : Nat → σ → Query α (Round σ ρ)} {i : Nat} {s : σ}

/-- The points of an iteration that goes on after its first step. -/
theorem asked_iterate_next {s' : σ} (h : (step i s).answer f = .ok (.next s'))
    (exhausted : σ → Query α ρ) (budget : Nat) :
  (iterate step exhausted (budget + 1) i s).asked f
    = (step i s).asked f ++ (iterate step exhausted budget (i + 1) s').asked f
  := by
  rw [iterate_succ, asked_bind_of_ok h]

/-- The points of an iteration that ends with its first step. -/
theorem asked_iterate_done {r : ρ} (h : (step i s).answer f = .ok (.done r))
    (exhausted : σ → Query α ρ) (budget : Nat) :
  (iterate step exhausted (budget + 1) i s).asked f = (step i s).asked f
  := by
  rw [iterate_succ, asked_bind_of_ok h]
  apply List.append_nil

end

end Query

end Numerics
