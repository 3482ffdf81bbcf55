import Mathlib.Data.Fin.Tuple.Basic
import Mathlib.Data.List.OfFn
import Numerics.Proofs.Iteration

/-!
# Surveys

A minimization without derivatives looks at its objective through the values that it asks for, and
never fails. `Survey ι ν β` is such a computation without the objective: it asks for values in `ν`
at points in `ι`, one after the other, and ends with a `β`. Once an objective `f` is given, it has
an `answer f`, and `asked f` are the points at which it asked for a value, in order.
-/

namespace Numerics

/-- A computation that asks for values in `ν` of a function on `ι` and ends with a `β`. -/
inductive Survey (ι ν β : Type) where
  /-- The computation ends with `b`. -/
  | done (b : β)
  /-- The computation asks for the value at `x`, and goes on from it. -/
  | ask (x : ι) (next : ν → Survey ι ν β)

namespace Survey

variable {ι ν β γ σ ρ : Type}

/-- The computation `q`, followed by `k` at its result. -/
def andThen (q : Survey ι ν β) (k : β → Survey ι ν γ) : Survey ι ν γ :=
  match q with
  | done b => k b
  | ask x next => ask x fun v => (next v).andThen k

instance : Monad (Survey ι ν) where
  pure := done
  bind := andThen

/-- The value at `x`. -/
def value (x : ι) : Survey ι ν ν :=
  ask x done

/-- The values at the points `xs`, in order. -/
def values : {k : Nat} → (Fin k → ι) → Survey ι ν (Fin k → ν)
  | 0, _ => done Fin.elim0
  | _ + 1, xs => do
    let v ← value (xs ⟨0, Nat.succ_pos _⟩)
    let vs ← values fun i => xs i.succ
    return Fin.cons v vs

/-- What the computation ends with if the function is `f`. -/
def answer (f : ι → ν) : Survey ι ν β → β
  | done b => b
  | ask x next => (next (f x)).answer f

/-- The points at which the computation asks for a value if the function is `f`, in order. -/
def asked (f : ι → ν) : Survey ι ν β → List ι
  | done _ => []
  | ask x next => x :: (next (f x)).asked f

variable (f : ι → ν)

/-! ### Answers -/

@[simp]
theorem answer_pure (b : β) :
  (pure b : Survey ι ν β).answer f = b
  := rfl

@[simp]
theorem answer_value (x : ι) :
  (value x).answer f = f x
  := rfl

@[simp]
theorem answer_bind (q : Survey ι ν β) (k : β → Survey ι ν γ) :
  (q >>= k).answer f = (k (q.answer f)).answer f
  := by
  induction q with
  | done b => rfl
  | ask x next ih => exact ih (f x)

theorem answer_ite (c : Prop) [Decidable c] (q r : Survey ι ν β) :
  (if c then q else r).answer f = if c then q.answer f else r.answer f
  := apply_ite (answer f) c q r

@[simp]
theorem answer_values {k : Nat} (xs : Fin k → ι) :
  (values xs).answer f = f ∘ xs
  := by
  induction k with
  | zero => exact Subsingleton.elim _ _
  | succ k ih =>
    rw [values, answer_bind, answer_bind, answer_value, ih, answer_pure]
    funext i
    cases i using Fin.cases <;> rfl

theorem answer_iterate (step : Nat → σ → Survey ι ν (Round σ ρ)) (exhausted : σ → Survey ι ν ρ)
    (budget i : Nat) (s : σ) :
  (iterate step exhausted budget i s).answer f
    = Id.run (iterate (m := Id) (fun i s => ((step i s).answer f : Round σ ρ))
        (fun s => ((exhausted s).answer f : ρ)) budget i s)
  := by
  apply iterate_map (m := Survey ι ν) fun q => (q.answer f : Id _)
  · intro _ b
    rfl
  · intro _ _ q k
    apply answer_bind

/-! ### Points -/

@[simp]
theorem asked_pure (b : β) :
  (pure b : Survey ι ν β).asked f = []
  := rfl

@[simp]
theorem asked_value (x : ι) :
  (value x : Survey ι ν ν).asked f = [x]
  := rfl

@[simp]
theorem asked_bind (q : Survey ι ν β) (k : β → Survey ι ν γ) :
  (q >>= k).asked f = q.asked f ++ (k (q.answer f)).asked f
  := by
  induction q with
  | done b => rfl
  | ask x next ih => exact congrArg (List.cons x) (ih (f x))

theorem asked_ite (c : Prop) [Decidable c] (q r : Survey ι ν β) :
  (if c then q else r).asked f = if c then q.asked f else r.asked f
  := apply_ite (asked f) c q r

@[simp]
theorem asked_values {k : Nat} (xs : Fin k → ι) :
  (values xs).asked f = List.ofFn xs
  := by
  induction k with
  | zero => rfl
  | succ k ih =>
    rw [values, asked_bind, asked_bind, asked_value, ih, List.ofFn_succ]
    simp

/-! ### Iterations -/

section

variable {f} {step : Nat → σ → Survey ι ν (Round σ ρ)} {i : Nat} {s : σ}

/-- An iteration that goes on after its first step. -/
theorem iterate_next {s' : σ} (h : (step i s).answer f = .next s')
    (exhausted : σ → Survey ι ν ρ) (budget : Nat) :
  (iterate step exhausted (budget + 1) i s).answer f
      = (iterate step exhausted budget (i + 1) s').answer f
    ∧ (iterate step exhausted (budget + 1) i s).asked f
      = (step i s).asked f ++ (iterate step exhausted budget (i + 1) s').asked f
  := by
  rw [iterate_succ, answer_bind, asked_bind, h]
  exact ⟨rfl, rfl⟩

/-- An iteration that ends with its first step. -/
theorem iterate_done {r : ρ} (h : (step i s).answer f = .done r)
    (exhausted : σ → Survey ι ν ρ) (budget : Nat) :
  (iterate step exhausted (budget + 1) i s).answer f = r
    ∧ (iterate step exhausted (budget + 1) i s).asked f = (step i s).asked f
  := by
  rw [iterate_succ, answer_bind, asked_bind, h]
  exact ⟨rfl, List.append_nil _⟩

end

end Survey

end Numerics
