import Mathlib.Data.List.Basic

/-!
# Outcomes of a checked call

A call either returns, throws an exception, fails an assertion, reads outside
the memory it was given, or does not finish within the supplied fuel. The last
three have no value to continue with: an assertion failure ends the process and
a stray read has no defined result. They are kept apart from a thrown exception,
which the caller can observe and handle, so that a safety statement names the
outcome it excludes.

Nothing here mentions a particular buffer, program or protocol.
-/

namespace Nsblast

open List

universe u
variable {α β : Type u}

/-- The result of running a piece of imperative code to its end. -/
inductive Run (α : Type u) where
  | ok (value : α)
  | thrown (what : String)
  | aborted
  | outOfBounds
  | outOfFuel
  deriving DecidableEq, Repr

namespace Run

/-- Sequencing stops at the first outcome that is not a value. -/
def bind (run : Run α) (next : α → Run β) : Run β :=
  match run with
  | .ok value => next value
  | .thrown what => .thrown what
  | .aborted => .aborted
  | .outOfBounds => .outOfBounds
  | .outOfFuel => .outOfFuel

instance : Monad Run where
  pure := .ok
  bind := bind

/-- An assertion that is compiled in ends the process when it fails. -/
def assert (condition : Bool) : Run Unit := if condition then .ok () else .aborted

/-- A guarded exception: the call goes on only when the condition is false. -/
def throwIf (condition : Bool) (what : String) : Run Unit :=
  if condition then .thrown what else .ok ()

/-- An exception that would leave a function declared `noexcept` ends the process. -/
def noexcept (run : Run α) : Run α :=
  match run with
  | .thrown _ => .aborted
  | other => other

variable {compute : σ → Run α} {elements : List σ} {values : List α} {other : Run β} {first : α}
    {second : β} (value : α) (what : String) (next : α → Run β)

@[simp] theorem noexcept_ok : noexcept (.ok value) = .ok value := rfl

variable {condition : Prop}

theorem throwIf_of [Decidable condition] (holds : condition) (what : String) :
    throwIf (decide condition) what = .thrown what := by
  simp [throwIf, holds]

theorem throwIf_of_not [Decidable condition] (fails : ¬ condition)
    (what : String) : throwIf (decide condition) what = .ok () := by
  simp [throwIf, fails]

theorem assert_of [Decidable condition] (holds : condition) :
    assert (decide condition) = .ok () := by
  simp [assert, holds]

theorem assert_eq_ok {condition : Bool} {done : Unit} (asserted : assert condition = .ok done) :
    condition = true := by
  cases condition with
  | true => rfl
  | false => cases asserted

@[simp] theorem pure_eq : (pure value : Run α) = .ok value := rfl

@[simp] theorem bind_ok :
    (Run.ok value >>= next) = next value := rfl

@[simp] theorem bind_thrown :
    ((Run.thrown what : Run α) >>= next) = .thrown what := rfl

@[simp] theorem bind_aborted :
    ((Run.aborted : Run α) >>= next) = .aborted := rfl

@[simp] theorem bind_outOfBounds :
    ((Run.outOfBounds : Run α) >>= next) = .outOfBounds := rfl

@[simp] theorem bind_outOfFuel :
    ((Run.outOfFuel : Run α) >>= next) = .outOfFuel := rfl

/-- A sequence returns exactly when its first part returns a value on which the
second part returns. -/
theorem bind_eq_ok (run : Run α) (next : α → Run β) (result : β) :
    (run >>= next) = .ok result ↔ ∃ value, run = .ok value ∧ next value = .ok result := by
  cases run with
  | ok value =>
    constructor
    · intro returned
      exact ⟨value, rfl, returned⟩
    · rintro ⟨other, same, returned⟩
      cases same
      exact returned
  | thrown what => simp
  | aborted => simp
  | outOfBounds => simp
  | outOfFuel => simp

instance : LawfulMonad Run :=
  LawfulMonad.mk' Run
    (fun run => by cases run <;> rfl)
    (fun _ _ => rfl)
    (fun run _ _ => by cases run <;> rfl)

variable {σ : Type}

/-- An element of the second of two related lists is related to one of the first. -/
theorem exists_of_forall₂ {ι : Type _} {R : ι → α → Prop} {elements : List ι}
    {values : List α} {value : α} (all : List.Forall₂ R elements values) (member : value ∈ values) :
    ∃ element ∈ elements, R element value := by
  induction all with
  | nil => cases member
  | cons one _ ih =>
    rcases mem_cons.mp member with rfl | later
    · exact ⟨_, mem_cons_self, one⟩
    · obtain ⟨element, listed, related⟩ := ih later
      exact ⟨element, mem_cons_of_mem _ listed, related⟩

/-- A loop that computes one value for each element returns them in order. -/
theorem mapM_forall₂ (returned : elements.mapM compute = .ok values) :
    List.Forall₂ (fun element value => compute element = .ok value) elements values := by
  induction elements generalizing values with
  | nil =>
    cases returned
    exact .nil
  | cons first rest ih =>
    simp only [mapM_cons, bind_eq_ok] at returned
    obtain ⟨head, computed, tail, later, same⟩ := returned
    cases same
    exact .cons computed (ih later)

theorem mapM_mem (returned : elements.mapM compute = .ok values) {value : α}
    (member : value ∈ values) : ∃ element ∈ elements, compute element = .ok value :=
  exists_of_forall₂ (R := fun element value => compute element = .ok value)
    (mapM_forall₂ returned) member

/-- A loop returns if each of its turns does. -/
theorem mapM_of_forall₂ (compute : σ → Run α) {elements : List σ} {values : List α}
    (each : List.Forall₂ (fun element value => compute element = .ok value) elements values) :
    elements.mapM compute = .ok values := by
  induction each with
  | nil => rfl
  | cons computed _ ih => simp [mapM_cons, computed, ih]

/-- What every turn of a loop keeps holds when the loop returns. -/
theorem foldlM_invariant {σ : Type u} {τ : Type} (turn : σ → τ → Run σ) (invariant : σ → Prop)
    {elements : List τ} (start final : σ) (holds : invariant start)
    (kept : ∀ state element next, element ∈ elements → invariant state →
      turn state element = .ok next → invariant next)
    (returned : elements.foldlM turn start = .ok final) : invariant final := by
  induction elements generalizing start with
  | nil =>
    cases returned
    exact holds
  | cons first rest ih =>
    rw [foldlM_cons, bind_eq_ok] at returned
    obtain ⟨next, turned, later⟩ := returned
    apply ih next (kept start first next mem_cons_self holds turned) _ later
    intro state element next' member
    exact kept state element next' (mem_cons_of_mem first member)

/-- Two calls end in the same way, and if they return, with related values. -/
inductive Rel (related : α → β → Prop) : Run α → Run β → Prop
  | ok {first : α} {second : β} (values : related first second) : Rel related (.ok first) (.ok second)
  | thrown (what : String) : Rel related (.thrown what) (.thrown what)
  | aborted : Rel related .aborted .aborted
  | outOfBounds : Rel related .outOfBounds .outOfBounds
  | outOfFuel : Rel related .outOfFuel .outOfFuel

variable {related : α → β → Prop} {run : Run α}

/-- Related calls are continued to related calls. -/
theorem Rel.bind {α' β' : Type u} {related' : α' → β' → Prop} {next : α → Run α'}
    {next' : β → Run β'} (begun : Rel related run other)
    (continued : ∀ first second, related first second → Rel related' (next first) (next' second)) :
    Rel related' (run >>= next) (other >>= next') := by
  cases begun with
  | ok values => exact continued _ _ values
  | thrown what => exact .thrown what
  | aborted => exact .aborted
  | outOfBounds => exact .outOfBounds
  | outOfFuel => exact .outOfFuel

/-- The same call before both. -/
theorem Rel.after {γ : Type u} (run : Run γ) {next : γ → Run α} {next' : γ → Run β}
    (continued : ∀ value, run = .ok value → Rel related (next value) (next' value)) :
    Rel related (run >>= next) (run >>= next') := by
  cases run with
  | ok value => exact continued value rfl
  | thrown what => exact .thrown what
  | aborted => exact .aborted
  | outOfBounds => exact .outOfBounds
  | outOfFuel => exact .outOfFuel

/-- Loops whose turns are related. -/
theorem Rel.foldlM {turn : α → σ → Run α} {turn' : β → σ → Run β} (elements : List σ)
    (values : related first second) (turned : ∀ state state' element, related state state' →
      Rel related (turn state element) (turn' state' element)) :
    Rel related (elements.foldlM turn first) (elements.foldlM turn' second) := by
  induction elements generalizing first second with
  | nil => exact .ok values
  | cons element rest ih =>
    rw [foldlM_cons, foldlM_cons]
    exact (turned first second element values).bind fun _ _ next => ih next

/-- What a call returns is related to what the other one returns. -/
theorem Rel.returned (same : Rel related run (.ok second)) :
    ∃ first, run = .ok first ∧ related first second := by
  cases same with
  | ok values => exact ⟨_, rfl, values⟩

/-- A call that returns is related to one that returns. -/
theorem Rel.returns (same : Rel related (.ok first) other) :
    ∃ second, other = .ok second ∧ related first second := by
  cases same with
  | ok values => exact ⟨_, rfl, values⟩

theorem Rel.eq_aborted (same : Rel related run .aborted) : run = .aborted := by
  cases same
  rfl

section within

/-- Wherever the first call returns, the second one returns the same. -/
def Within (run other : Run α) : Prop := ∀ value, run = .ok value → other = .ok value

theorem within_refl (run : Run α) : Within run run := fun _ returned => returned

theorem Within.bind {other : Run α} {next next' : α → Run β} (begun : Within run other)
    (continued : ∀ value, Within (next value) (next' value)) :
    Within (run >>= next) (other >>= next') := by
  intro result returned
  rw [bind_eq_ok] at returned
  obtain ⟨value, isValue, returned⟩ := returned
  rw [begun value isValue]
  exact continued value result returned

theorem Within.ite {condition : Prop} [Decidable condition] {yes yes' no no' : Run α}
    (holds : Within yes yes') (fails : Within no no') :
    Within (if condition then yes else no) (if condition then yes' else no') := by
  split
  · exact holds
  · exact fails

theorem within_assert {condition other : Bool} (implied : condition = true → other = true) :
    Within (assert condition) (assert other) := by
  intro value asserted
  rw [implied (assert_eq_ok asserted)]
  rfl

end within

/-- The call returns. -/
def isOk : Run α → Bool
  | .ok _ => true
  | _ => false

theorem isOk_iff (run : Run α) : run.isOk = true ↔ ∃ value, run = .ok value := by
  cases run <;> simp [isOk]

/-- The outcome is one a caller can deal with: a value or an exception. -/
def Settled : Run α → Prop
  | .ok _ => True
  | .thrown _ => True
  | .aborted => False
  | .outOfBounds => False
  | .outOfFuel => False

@[simp] theorem settled_ok : Settled (.ok value) := trivial

@[simp] theorem settled_thrown : Settled (.thrown what : Run α) := trivial

end Run

end Nsblast
