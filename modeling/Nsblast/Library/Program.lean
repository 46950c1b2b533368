import Nsblast.Library.Outcome
import Nsblast.Library.Replay

/-!
# Programs over a keyed store

A program reads and writes one key at a time, and what it does next may depend on
every answer. `Runs` describes a returning execution by its operations, with the
answers left open; `Answered` says that the answers are those of a store on which
nobody else works. `exec` runs a program on such a store.

Separating the two allows the same description of a program to be used where its
reads are answered by a store that changes in between.
-/

namespace Nsblast

open List Replay

/-- A program that ends with an outcome. A write without a value deletes the key. -/
inductive Program (K V α : Type) where
  | done (outcome : Run α)
  | get (key : K) (next : Option V → Program K V α)
  | put (key : K) (value : Option V) (next : Program K V α)

/-- One operation and, for a read, its answer. -/
inductive Op (K V : Type) where
  | read (key : K) (answer : Option V)
  | write (key : K) (value : Option V)
  deriving DecidableEq, Repr

variable {K V α β : Type}

namespace Program

def bind : Program K V α → (α → Program K V β) → Program K V β
  | done (.ok value), next => next value
  | done (.thrown what), _ => done (.thrown what)
  | done .aborted, _ => done .aborted
  | done .outOfBounds, _ => done .outOfBounds
  | done .outOfFuel, _ => done .outOfFuel
  | get key continued, next => get key fun answer => (continued answer).bind next
  | put key value continued, next => put key value (continued.bind next)

instance : Monad (Program K V) where
  pure value := done (.ok value)
  bind := bind

/-- A single read. -/
def read (key : K) : Program K V (Option V) := get key fun answer => done (.ok answer)

/-- A single write. -/
def write (key : K) (value : Option V) : Program K V Unit := put key value (done (.ok ()))

/-- The program returns the value after these operations. -/
inductive Runs : Program K V α → List (Op K V) → α → Prop where
  | done (value : α) : Runs (done (.ok value)) [] value
  | get (key : K) (next : Option V → Program K V α) (answer : Option V) (ops : List (Op K V))
      (value : α) (rest : Runs (next answer) ops value) :
      Runs (get key next) (.read key answer :: ops) value
  | put (key : K) (written : Option V) (next : Program K V α) (ops : List (Op K V)) (value : α)
      (rest : Runs next ops value) : Runs (put key written next) (.write key written :: ops) value

variable (outcome : Run α) (key : K) (next : α → Program K V β) (ops : List (Op K V))

theorem runs_done (value : α) :
    Runs (done outcome) ops value ↔ outcome = .ok value ∧ ops = [] := by
  constructor
  · intro runs
    cases runs with
    | done => exact ⟨rfl, rfl⟩
  · rintro ⟨rfl, rfl⟩
    exact .done value

theorem runs_pure (returned : α) (ops : List (Op K V)) (value : α) :
    Runs (pure returned : Program K V α) ops value ↔ returned = value ∧ ops = [] := by
  refine (runs_done _ ops value).trans ?_
  rw [Run.ok.injEq]

theorem runs_read (answer : Option V) :
    Runs (read key) ops answer ↔ ops = [.read key answer] := by
  constructor
  · intro runs
    cases runs with
    | get _ _ _ _ _ rest =>
      obtain ⟨same, rfl⟩ := (runs_done _ _ _).mp rest
      cases same
      rfl
  · rintro rfl
    exact .get key _ answer [] answer (.done answer)

theorem runs_write (written : Option V) (ops : List (Op K V)) (value : Unit) :
    Runs (write key written) ops value ↔ ops = [.write key written] := by
  constructor
  · intro runs
    cases runs with
    | put _ _ _ _ _ rest =>
      obtain ⟨_, rfl⟩ := (runs_done _ _ _).mp rest
      rfl
  · rintro rfl
    exact .put key written _ [] () (.done ())

/-- A sequence returns after the operations of its first part, followed by those
of the rest. -/
theorem runs_bind (first : Program K V α) (next : α → Program K V β) (ops : List (Op K V))
    (value : β) :
    Runs (first >>= next) ops value ↔
      ∃ before after middle, ops = before ++ after ∧ Runs first before middle ∧
        Runs (next middle) after value := by
  constructor
  · intro runs
    induction first generalizing ops with
    | done outcome =>
      cases outcome with
      | ok middle => exact ⟨[], ops, middle, rfl, .done middle, runs⟩
      | thrown what => cases ((runs_done _ _ _).mp runs).1
      | aborted => cases ((runs_done _ _ _).mp runs).1
      | outOfBounds => cases ((runs_done _ _ _).mp runs).1
      | outOfFuel => cases ((runs_done _ _ _).mp runs).1
    | get key continued ih =>
      cases runs with
      | get _ _ answer tail _ rest =>
        obtain ⟨before, after, middle, rfl, left, right⟩ := ih answer tail rest
        exact ⟨.read key answer :: before, after, middle, rfl, .get key _ answer _ _ left, right⟩
    | put key written continued ih =>
      cases runs with
      | put _ _ _ tail _ rest =>
        obtain ⟨before, after, middle, rfl, left, right⟩ := ih tail rest
        exact ⟨.write key written :: before, after, middle, rfl, .put key _ _ _ _ left, right⟩
  · rintro ⟨before, after, middle, rfl, left, right⟩
    induction left with
    | done _ => exact right
    | get key _ answer _ _ _ ih => exact .get key _ answer _ _ (ih right)
    | put key written _ _ _ _ ih => exact .put key written _ _ _ (ih right)

/-- A sequence that begins with a computation. -/
theorem runs_done_bind (value : β) :
    Runs (done outcome >>= next) ops value ↔
      ∃ middle, outcome = .ok middle ∧ Runs (next middle) ops value := by
  rw [runs_bind]
  constructor
  · rintro ⟨before, after, middle, rfl, left, right⟩
    obtain ⟨same, rfl⟩ := (runs_done _ _ _).mp left
    exact ⟨middle, same, right⟩
  · rintro ⟨middle, rfl, right⟩
    exact ⟨[], ops, middle, rfl, .done middle, right⟩

end Program

namespace Op

/-- What the operations have written. -/
def writes (ops : List (Op K V)) : Replay.Writes K V :=
  ops.filterMap fun
    | .read _ _ => none
    | .write key value => some (key, value)

@[simp] theorem writes_nil : writes ([] : List (Op K V)) = [] := rfl

@[simp] theorem writes_read (key : K) (answer : Option V) (ops : List (Op K V)) :
    writes (.read key answer :: ops) = writes ops := rfl

@[simp] theorem writes_write (key : K) (value : Option V) (ops : List (Op K V)) :
    writes (.write key value :: ops) = (key, value) :: writes ops := rfl

@[simp] theorem writes_append (first second : List (Op K V)) :
    writes (first ++ second) = writes first ++ writes second :=
  filterMap_append

/-- Only reads. -/
def Reading (ops : List (Op K V)) : Prop := ∀ op ∈ ops, ∃ key answer, op = .read key answer

theorem Reading.writes {ops : List (Op K V)} (reading : Reading ops) : writes ops = [] := by
  rw [Op.writes, filterMap_eq_nil_iff]
  intro op member
  obtain ⟨key, answer, rfl⟩ := reading op member
  rfl

theorem reading_single (key : K) (answer : Option V) : Reading [.read key answer] := by
  intro op member
  exact ⟨key, answer, mem_singleton.mp member⟩

theorem Reading.append {first second : List (Op K V)} (left : Reading first)
    (right : Reading second) : Reading (first ++ second) := by
  intro op member
  rcases mem_append.mp member with member | member
  · exact left op member
  · exact right op member

section Answered

variable [DecidableEq K]

/-- The reads are answered by the content, each after the writes before it. -/
def Answered (content : K → Option V) : List (Op K V) → Prop
  | [] => True
  | .read key answer :: ops => content key = answer ∧ Answered content ops
  | .write key value :: ops => Answered (Function.update content key value) ops

theorem answered_append (content : K → Option V) (first second : List (Op K V)) :
    Answered content (first ++ second) ↔
      Answered content first ∧ Answered (apply content (writes first)) second := by
  induction first generalizing content with
  | nil => simp [Answered]
  | cons op rest ih =>
    cases op with
    | read key answer => rw [cons_append, Answered, ih, Answered, writes_read, and_assoc]
    | write key value =>
      rw [cons_append, Answered, ih, Answered, writes_write, apply_cons]

/-- Before anything is written, a read shows the content. -/
theorem Answered.reading {content : K → Option V} {ops : List (Op K V)}
    (answered : Answered content ops) (reading : Reading ops) (key : K) (answer : Option V)
    (member : .read key answer ∈ ops) : content key = answer := by
  induction ops with
  | nil => cases member
  | cons op rest ih =>
    obtain ⟨first, found, rfl⟩ := reading op mem_cons_self
    rcases mem_cons.mp member with same | later
    · cases same
      exact answered.1
    · exact ih answered.2 (fun op member => reading op (mem_cons_of_mem _ member)) later

end Answered

end Op

namespace Program

variable [DecidableEq K]

/-- Running a program on a store of its own. -/
def exec (content : K → Option V) : Program K V α → Run (α × List (Op K V))
  | done outcome => do
      let value ← outcome
      .ok (value, [])
  | get key next => do
      let (value, ops) ← (next (content key)).exec content
      .ok (value, .read key (content key) :: ops)
  | put key value next => do
      let (result, ops) ← next.exec (Function.update content key value)
      .ok (result, .write key value :: ops)

variable (content : K → Option V)

/-- A sequence that begins with a computation. -/
theorem exec_done_bind (outcome : Run α) (next : α → Program K V β) :
    (done outcome >>= next).exec content = outcome >>= fun value => (next value).exec content := by
  cases outcome <;> rfl

/-- A sequence runs its parts one after the other, the second on what the first has left. -/
theorem exec_bind (first : Program K V α) (next : α → Program K V β) :
    (first >>= next).exec content = (do
      let (value, before) ← first.exec content
      let (result, after) ← (next value).exec (apply content (Op.writes before))
      .ok (result, before ++ after)) := by
  induction first generalizing content with
  | done outcome =>
    rw [exec_done_bind, exec]
    cases outcome with
    | ok value =>
      simp only [Run.bind_ok, Op.writes_nil, apply_nil, nil_append]
      cases (next value).exec content <;> rfl
    | _ => rfl
  | get key continued ih =>
    have step : (get key continued >>= next).exec content = (do
        let (value, ops) ← (continued (content key) >>= next).exec content
        .ok (value, .read key (content key) :: ops)) := rfl
    rw [step, ih, exec]
    cases (continued (content key)).exec content with
    | ok answer =>
      simp only [Run.bind_ok, Op.writes_read]
      cases (next answer.1).exec (apply content (Op.writes answer.2)) <;> rfl
    | _ => rfl
  | put key written continued ih =>
    have step : (put key written continued >>= next).exec content = (do
        let (value, ops) ← (continued >>= next).exec (Function.update content key written)
        .ok (value, .write key written :: ops)) := rfl
    rw [step, ih, exec]
    cases continued.exec (Function.update content key written) with
    | ok answer =>
      simp only [Run.bind_ok, Op.writes_write, apply_cons]
      cases (next answer.1).exec
        (apply (Function.update content key written) (Op.writes answer.2)) <;> rfl
    | _ => rfl

/-- A run on a store of its own is a run whose reads the store answers. -/
theorem exec_eq_ok (program : Program K V α) (value : α) (ops : List (Op K V)) :
    program.exec content = .ok (value, ops) ↔ Runs program ops value ∧ Op.Answered content ops := by
  constructor
  · intro returned
    induction program generalizing content ops with
    | done outcome =>
      rw [exec, Run.bind_eq_ok] at returned
      obtain ⟨result, rfl, same⟩ := returned
      cases same
      exact ⟨.done value, trivial⟩
    | get key next ih =>
      rw [exec, Run.bind_eq_ok] at returned
      obtain ⟨⟨result, tail⟩, rest, same⟩ := returned
      cases same
      obtain ⟨runs, answered⟩ := ih (content key) content tail rest
      exact ⟨.get key next _ _ _ runs, rfl, answered⟩
    | put key written next ih =>
      rw [exec, Run.bind_eq_ok] at returned
      obtain ⟨⟨result, tail⟩, rest, same⟩ := returned
      cases same
      obtain ⟨runs, answered⟩ := ih _ tail rest
      exact ⟨.put key written next _ _ runs, answered⟩
  · rintro ⟨runs, answered⟩
    induction runs generalizing content with
    | done result => rfl
    | get key next answer tail result _ ih =>
      obtain ⟨rfl, answered⟩ := answered
      rw [exec, ih content answered, Run.bind_ok]
    | put key written next tail result _ ih => rw [exec, ih _ answered, Run.bind_ok]

end Program

end Nsblast
