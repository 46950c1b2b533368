import Nsblast.Library.Outcome

/-!
# Handlers that are left early

A handler changes a state and can be left before its end: it returns, it throws, or the
process does not survive it. What it did to the state until then stays, since code that
runs when the scope is left looks at the state. A call is a computation that does not
touch the state.

Nothing here mentions a particular state.
-/

namespace Nsblast

/-- How a handler is left before its end. -/
inductive Leave where
  | returned
  | thrown (what : String)
  | aborted
  | outOfBounds
  | outOfFuel
  deriving DecidableEq, Repr

/-- The process does not get to the end of the scope. -/
def Leave.EndsProcess : Leave → Prop
  | .returned => False
  | .thrown _ => False
  | .aborted => True
  | .outOfBounds => True
  | .outOfFuel => True

abbrev Handler (σ α : Type) := EStateM Leave σ α

namespace Handler

variable {σ α β : Type}

def call (run : Run α) : Handler σ α := fun state =>
  match run with
  | .ok value => .ok value state
  | .thrown what => .error (.thrown what) state
  | .aborted => .error .aborted state
  | .outOfBounds => .error .outOfBounds state
  | .outOfFuel => .error .outOfFuel state

/-- The state in which a handler was left. -/
def stateOf : EStateM.Result Leave σ α → σ
  | .ok _ state => state
  | .error _ state => state

/-- The state behind a handler, in whatever way it is left. -/
def leaves (handler : Handler σ α) (state : σ) : σ := stateOf (handler state)

@[simp] theorem call_ok (value : α) (state : σ) : call (.ok value) state = .ok value state := rfl

variable {handler : Handler σ α} {next : α → Handler σ β}

theorem bind_of_ok {state after : σ} {value : α}
    (returned : handler state = .ok value after) : (handler >>= next) state = next value after := by
  simp only [bind, EStateM.bind, returned]

variable {leave : Leave}

theorem bind_of_error {state after : σ} (left : handler state = .error leave after) :
    (handler >>= next) state = .error leave after := by
  simp only [bind, EStateM.bind, left]

section forM

variable {τ : Type} {turn : τ → Handler σ PUnit} {first : τ} {rest : List τ} {state after : σ}

theorem forM_of_ok (returned : turn first state = .ok PUnit.unit after) :
    (first :: rest).forM turn state = rest.forM turn after :=
  bind_of_ok returned

theorem forM_of_error (left : turn first state = .error leave after) :
    (first :: rest).forM turn state = .error leave after :=
  bind_of_error left

end forM

/-- However the handler is left, what held before still holds. -/
def Keeps (invariant : σ → Prop) (handler : Handler σ α) : Prop :=
  ∀ state, invariant state → invariant (handler.leaves state)

section keeps

variable {invariant : σ → Prop}

theorem keeps_pure (value : α) : Keeps invariant (pure value : Handler σ α) :=
  fun _ holds => holds

theorem keeps_throw (leave : Leave) : Keeps invariant (throw leave : Handler σ α) :=
  fun _ holds => holds

theorem keeps_call (run : Run α) : Keeps invariant (call run : Handler σ α) := by
  intro state holds
  cases run <;> exact holds

theorem keeps_modify (change : σ → σ) (kept : ∀ state, invariant state → invariant (change state)) :
    Keeps invariant (modify change : Handler σ Unit) :=
  kept

theorem keeps_bind (next : α → Handler σ β) (first : Keeps invariant handler)
    (second : ∀ value, Keeps invariant (next value)) : Keeps invariant (handler >>= next) := by
  intro state holds
  have kept := first state holds
  rw [leaves] at kept ⊢
  cases behind : handler state with
  | ok value after =>
    rw [behind] at kept
    rw [bind_of_ok behind]
    exact second value after kept
  | error leave after =>
    rw [behind] at kept
    rw [bind_of_error behind]
    exact kept

/-- A call in front of a handler does not change the state. -/
theorem keeps_call_bind {run : Run α}
    (later : ∀ value, run = .ok value → Keeps invariant (next value)) :
    Keeps invariant (call run >>= next) := by
  intro state holds
  cases run with
  | ok value => exact later value rfl state holds
  | _ => exact holds

theorem keeps_ite {condition : Prop} [Decidable condition] {first second : Handler σ α}
    (holds : Keeps invariant first) (fails : Keeps invariant second) :
    Keeps invariant (if condition then first else second) := by
  split
  · exact holds
  · exact fails

theorem keeps_forM {τ : Type} {elements : List τ} (turn : τ → Handler σ PUnit)
    (each : ∀ element ∈ elements, Keeps invariant (turn element)) :
    Keeps invariant (elements.forM turn) := by
  induction elements with
  | nil => exact keeps_pure PUnit.unit
  | cons first rest ih =>
    exact keeps_bind (fun _ => rest.forM turn) (each first List.mem_cons_self) fun _ =>
      ih fun element member => each element (List.mem_cons_of_mem first member)

end keeps

end Handler

end Nsblast
