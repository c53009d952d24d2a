import Mathlib.Data.List.Basic

/-!
# Computations that leave a state behind

An `Attempt` is what a computation over a state leaves: its value or what it threw, the state
at that point, and a log of what it asked for on the way.  Unlike a value of `Except` over
pairs, it keeps the state of a computation that threw.

A bind runs the rest from the state it is left with, unless the first part threw.
-/

universe u

/-- What a computation over `σ` leaves. -/
structure Attempt (ε σ ω α : Type u) where
  result : Except ε α
  state : σ
  log : List ω

namespace Attempt

variable {ε ε' σ ω α β : Type u}

/-- A result, and nothing in the log. -/
def ok (v : α) (s : σ) : Attempt ε σ ω α := ⟨.ok v, s, []⟩

/-- An exception, and nothing in the log. -/
def throw (e : ε) (s : σ) : Attempt ε σ ω α := ⟨.error e, s, []⟩

/-- One computation after the other.  An exception ends both and keeps the state and the log. -/
def bind (x : Attempt ε σ ω α) (next : α → σ → Attempt ε σ ω β) : Attempt ε σ ω β :=
  match x.result with
  | .error e => ⟨.error e, x.state, x.log⟩
  | .ok v =>
      let y := next v x.state
      ⟨y.result, y.state, x.log ++ y.log⟩

/-- Another result. -/
def map (f : α → β) (x : Attempt ε σ ω α) : Attempt ε σ ω β :=
  ⟨x.result.map f, x.state, x.log⟩

/-- A computation in one step, which throws before it changes the state. -/
def once (lift : ε' → ε) (reader : σ → Except ε' (α × σ)) (s : σ) : Attempt ε σ ω α :=
  match reader s with
  | .ok (v, s') => ok v s'
  | .error e => throw (lift e) s

/-- The state is forgotten where it threw. -/
def toExcept (x : Attempt ε σ ω α) : Except ε (α × σ) := x.result.map fun v => (v, x.state)

@[simp] theorem bind_ok (v : α) (s : σ) (next : α → σ → Attempt ε σ ω β) :
    (ok v s : Attempt ε σ ω α).bind next = next v s := rfl

section Once

variable {lift : ε' → ε} {reader : σ → Except ε' (α × σ)} {s s' : σ}

theorem once_of_ok {v : α} (h : reader s = .ok (v, s')) :
    (once lift reader s : Attempt ε σ ω α) = ok v s' := by
  rw [once, h]

theorem once_of_error {e : ε'} (h : reader s = .error e) :
    (once lift reader s : Attempt ε σ ω α) = throw (lift e) s := by
  rw [once, h]

end Once

/-! ## What a caller sees that forgets the state -/

theorem toExcept_once (lift : ε' → ε) (reader : σ → Except ε' (α × σ)) (s : σ) :
    (once lift reader s : Attempt ε σ ω α).toExcept = (reader s).mapError lift := by
  rw [once]
  cases reader s with
  | error e => rfl
  | ok r => rfl

theorem toExcept_map (f : α → β) (x : Attempt ε σ ω α) :
    (x.map f).toExcept = x.toExcept.map fun r => (f r.1, r.2) := by
  obtain ⟨result, s, log⟩ := x
  cases result with
  | error e => rfl
  | ok v => rfl

theorem toExcept_bind (x : Attempt ε σ ω α) (next : α → σ → Attempt ε σ ω β) :
    (x.bind next).toExcept = x.toExcept >>= fun r => (next r.1 r.2).toExcept := by
  obtain ⟨result, s, log⟩ := x
  cases result with
  | error e => rfl
  | ok v => rfl

end Attempt
