import Mathlib.Data.List.Induction
import Nsblast.Replication.Streaming

/-!
# The queue behind a replication agent

`GrpcPrimary::SyncClient` keeps the updates for one follower in a queue and hands
them to the stream one at a time. `enqueue` puts an update into the queue and then
answers false if too many are waiting. `flush` starts the next write, or tells the
agent that the queue is empty; it does the latter also while a write is under way,
whatever is waiting.

The agent holds its mutex while it enqueues a transaction it was told about. If
that `flush` tells it that the queue is empty, it locks the mutex a second time and
never returns: the connection is stuck, with its update in the queue.

A connection is the agent of `Cluster` with such a queue in place of the open
answer. Each of its steps is a step of the cluster, or leaves it alone.
-/

namespace Nsblast.PrimaryReplication

open List

variable {V : Type}

/-- The sending side of `SyncClient`, with the ids of the updates whose write was
started. -/
structure SendQueue where
  sent : List Nat := []
  current : Option Nat := none
  pending : List Nat := []
  hasWrittenAfterEmptyQueue : Bool := true
  deriving DecidableEq, Repr

namespace SendQueue

/-- `SyncClient::flush`, and whether it calls `onQueueIsEmpty`. -/
def flush (queue : SendQueue) : SendQueue × Bool :=
  match queue.current, queue.pending with
  | none, id :: rest =>
      ({ queue with
          sent := queue.sent ++ [id]
          current := some id
          pending := rest
          hasWrittenAfterEmptyQueue := true }, false)
  | _, _ => ({ queue with hasWrittenAfterEmptyQueue := false }, queue.hasWrittenAfterEmptyQueue)

/-- `SyncClient::enqueue` on a stream that has not ended, without its answer. -/
def enqueue (queue : SendQueue) (id : Nat) : SendQueue × Bool :=
  flush { queue with pending := queue.pending ++ [id] }

/-- The answer of `enqueue`. -/
def room (limit : Nat) (queue : SendQueue) (id : Nat) : Bool :=
  (queue.enqueue id).1.pending.length ≤ limit

/-- `SyncClient::OnWriteDone`. -/
def onWriteDone (queue : SendQueue) : SendQueue × Bool := flush { queue with current := none }

/-- The ids of all updates put into the queue so far. -/
def put (queue : SendQueue) : List Nat := queue.sent ++ queue.pending

theorem put_flush (queue : SendQueue) : queue.flush.1.put = queue.put := by
  rw [flush]
  split
  · rename_i waiting
    simp [put, waiting]
  · rfl

theorem put_enqueue (queue : SendQueue) (id : Nat) :
    (queue.enqueue id).1.put = queue.put ++ [id] := by
  rw [enqueue, put_flush, put, put, append_assoc]

theorem put_onWriteDone (queue : SendQueue) : queue.onWriteDone.1.put = queue.put := by
  rw [onWriteDone, put_flush]
  rfl

section signals

/-- What is called on a client. The agent calls `enqueue` with its mutex locked. -/
inductive Call where
  | enqueue (id : Nat)
  | onWriteDone
  | flush
  deriving DecidableEq

def Call.run (queue : SendQueue) : Call → SendQueue × Bool
  | enqueue id => queue.enqueue id
  | onWriteDone => queue.onWriteDone
  | flush => queue.flush

/-- The queue of a new client after some calls. -/
def after (calls : List Call) : SendQueue := calls.foldl (fun queue call => (call.run queue).1) {}

/-- If the call tells the agent that the queue is empty, it is, nothing is being written, and
the agent does not hold its mutex. -/
def Truthful (queue : SendQueue) (call : Call) : Prop :=
  (call.run queue).2 = true → (call.run queue).1.pending = [] ∧
    (call.run queue).1.current = none ∧ ∀ id, call ≠ .enqueue id

/-- Apart from the end of a write, nothing is called while a write is under way that was
started since the agent was last told. -/
def Calm (queue : SendQueue) (call : Call) : Prop :=
  call = .onWriteDone ∨ queue.current = none ∨ queue.hasWrittenAfterEmptyQueue = false

/-- Something waits only while a write is under way. -/
def Writing (queue : SendQueue) : Prop := queue.current = none → queue.pending = []

theorem flush_writing (queue : SendQueue) : Writing queue.flush.1 := by
  rcases queue with ⟨sent, _ | id, _ | ⟨first, rest⟩, written⟩
  · exact fun _ => rfl
  · exact nofun
  · exact nofun
  · exact nofun

theorem run_writing (queue : SendQueue) (call : Call) : Writing (call.run queue).1 := by
  cases call with
  | enqueue id => exact flush_writing _
  | onWriteDone => exact flush_writing _
  | flush => exact flush_writing _

theorem after_writing (calls : List Call) : Writing (after calls) := by
  induction calls using reverseRecOn with
  | nil => exact fun _ => rfl
  | append_singleton before call _ =>
    rw [after, foldl_append]
    exact run_writing _ call

theorem truthful_iff {queue : SendQueue} (writing : Writing queue) (call : Call) :
    Truthful queue call ↔ Calm queue call := by
  rcases queue with ⟨sent, _ | current, pending, written⟩
  · have empty : pending = [] := writing rfl
    subst empty
    cases call with
    | enqueue id => simp [Truthful, Calm, Call.run, enqueue, flush]
    | onWriteDone => simp [Truthful, Calm, Call.run, onWriteDone, flush]
    | flush => simp [Truthful, Calm, Call.run, flush]
  · cases call with
    | enqueue id => simp [Truthful, Calm, Call.run, enqueue, flush]
    | onWriteDone =>
      cases pending with
      | nil => simp [Truthful, Calm, Call.run, onWriteDone, flush]
      | cons first rest => simp [Truthful, Calm, Call.run, onWriteDone, flush]
    | flush => simp [Truthful, Calm, Call.run, flush]

/-- In every order of the calls, the agent is told the truth, and outside of its mutex,
exactly if no update comes while an earlier one is being written. -/
theorem signals_truthful_iff (calls : List Call) :
    (∀ before call later, calls = before ++ call :: later → Truthful (after before) call) ↔
      ∀ before call later, calls = before ++ call :: later → Calm (after before) call := by
  constructor
  · intro truthful before call later isCall
    exact (truthful_iff (after_writing before) call).mp (truthful before call later isCall)
  · intro calm before call later isCall
    exact (truthful_iff (after_writing before) call).mpr (calm before call later isCall)

/-- The second of two updates tells the agent that the queue is empty, while it waits there
for the first one to be written and the agent holds its mutex. -/
theorem second_update_signals : ¬ Truthful (after [.enqueue 1]) (.enqueue 2) ∧
    (Call.run (after [.enqueue 1]) (.enqueue 2)).1.pending = [2] ∧
      (Call.run (after [.enqueue 1]) (.enqueue 2)).1.current = some 1 := by
  refine ⟨?_, rfl, rfl⟩
  intro truthful
  exact (truthful rfl).2.2 2 rfl

end signals

section order

/-- The updates in the order in which they are enqueued. -/
def accepted (calls : List Call) : List Nat :=
  calls.filterMap fun
    | .enqueue id => some id
    | _ => none

/-- The write under way is the last one that was started. -/
def LastSent (queue : SendQueue) : Prop := ∃ written, queue.sent = written ++ queue.current.toList

theorem flush_lastSent {queue : SendQueue} (last : LastSent queue) : LastSent queue.flush.1 := by
  rw [flush]
  split
  · exact ⟨queue.sent, rfl⟩
  · exact last

theorem run_lastSent {queue : SendQueue} (last : LastSent queue) (call : Call) :
    LastSent (call.run queue).1 := by
  cases call with
  | enqueue id => exact flush_lastSent last
  | onWriteDone => exact flush_lastSent ⟨queue.sent, (append_nil _).symm⟩
  | flush => exact flush_lastSent last

theorem run_put (queue : SendQueue) (call : Call) :
    (call.run queue).1.put = queue.put ++ accepted [call] := by
  cases call with
  | enqueue id => exact put_enqueue queue id
  | onWriteDone => exact (put_onWriteDone queue).trans (append_nil _).symm
  | flush => exact (put_flush queue).trans (append_nil _).symm

/-- In every order of the calls, what was written, what is being written and what waits are
the updates in the order in which they came, and nothing waits without a write under way. -/
theorem updates_in_order (calls : List Call) :
    (∃ written, (after calls).sent = written ++ (after calls).current.toList ∧
      written ++ (after calls).current.toList ++ (after calls).pending = accepted calls) ∧
    ((after calls).pending ≠ [] → (after calls).current.isSome = true) := by
  have last : LastSent (after calls) ∧ (after calls).put = accepted calls := by
    induction calls using reverseRecOn with
    | nil => exact ⟨⟨[], rfl⟩, rfl⟩
    | append_singleton before call ih =>
      rw [after, foldl_append, accepted, filterMap_append]
      exact ⟨run_lastSent ih.1 call, (run_put _ call).trans (congrArg (· ++ _) ih.2)⟩
  obtain ⟨⟨written, started⟩, order⟩ := last
  refine ⟨⟨written, started, started ▸ order⟩, ?_⟩
  intro waiting
  rw [Option.isSome_iff_ne_none]
  exact fun idle => waiting (after_writing calls idle)

end order

end SendQueue

/-- The callback of a transaction makes the agent enqueue it. -/
def Cluster.takes (cluster : Cluster V) (id : Nat) : Bool :=
  cluster.lastTrxid < id && cluster.agent.state == .streaming &&
    cluster.lastTrxid == cluster.agent.lastEnqueuedTrxid && !cluster.agent.client.isDone

/-- The callback of a transaction finds the agent somewhere else. -/
def Cluster.outOfSync (cluster : Cluster V) (id : Nat) : Bool :=
  cluster.lastTrxid < id && cluster.agent.state == .streaming &&
    cluster.lastTrxid != cluster.agent.lastEnqueuedTrxid

/-- One replication session. `posted` counts the calls of `syncLater` that have not
run yet. -/
structure Connection (V : Type) where
  cluster : Cluster V
  queue : SendQueue := {}
  lastConfirmedTrx : Nat
  posted : Nat := 1
  stuck : Bool := false

namespace Connection

/-- The callback of a transaction. -/
def onTransaction (limit : Nat) (connection : Connection V) (id : Nat) : Run (Connection V) := do
  let cluster ← connection.cluster.onTransaction id (connection.queue.room limit id)
  let taken := connection.cluster.takes id
  let answer := connection.queue.enqueue id
  .ok { connection with
    cluster
    queue := if taken then answer.1 else connection.queue
    posted := connection.posted + if connection.cluster.outOfSync id then 1 else 0
    stuck := taken && answer.2 }

/-- The start of `iterateDb`, for a call of `syncLater`. -/
def startScan (connection : Connection V) : Connection V :=
  { connection with
    cluster := { connection.cluster with
      agent := connection.cluster.agent.startScan connection.cluster.primary.db.trxlog }
    posted := connection.posted - 1 }

/-- `iterateDb` can enqueue: the client is there and its stream has not ended. -/
def live (connection : Connection V) : Bool :=
  !connection.cluster.agent.client.expired && !connection.cluster.agent.client.isDone

/-- One turn of the loop in `iterateDb`. -/
def visit (limit : Nat) (connection : Connection V) (id : Nat) (rest : List Nat) : Connection V :=
  let answer := connection.queue.enqueue id
  { connection with
    cluster := { connection.cluster with
      agent := connection.cluster.agent.visit id rest (connection.queue.room limit id) }
    queue := if connection.live then answer.1 else connection.queue
    posted := connection.posted + if connection.live && answer.2 then 1 else 0 }

/-- `OnWriteDone`. -/
def onWriteDone (connection : Connection V) : Connection V :=
  { connection with
    queue := connection.queue.onWriteDone.1
    posted := connection.posted + if connection.queue.onWriteDone.2 then 1 else 0 }

/-- One step. What needs the mutex of the agent or of the client has to wait for
ever in a connection that is stuck. -/
inductive Step (allowed : Category → Key → Prop) (limit : Nat) (connection : Connection V) :
    Connection V → Prop where
  | database (next : Cluster V)
      (step : PrimaryReplication.Step allowed connection.cluster .database next) :
      Step allowed limit connection { connection with cluster := next }
  | callback (id : Nat) (next : Connection V) (free : connection.stuck = false)
      (waiting : id ∈ connection.cluster.awaiting)
      (called : connection.onTransaction limit id = .ok next) : Step allowed limit connection next
  | startScan (posted : 0 < connection.posted)
      (iterating : connection.cluster.agent.state = .iteratingDb)
      (idle : connection.cluster.agent.scan = none) :
      Step allowed limit connection connection.startScan
  | skip (posted : 0 < connection.posted)
      (elsewhere : connection.cluster.agent.state ≠ .iteratingDb) :
      Step allowed limit connection { connection with posted := connection.posted - 1 }
  | visit (id : Nat) (rest : List Nat) (free : connection.stuck = false)
      (scanning : connection.cluster.agent.scan = some (id :: rest)) :
      Step allowed limit connection (connection.visit limit id rest)
  | finishScan (next : Cluster V) (free : connection.stuck = false)
      (step : PrimaryReplication.Step allowed connection.cluster .finishScan next) :
      Step allowed limit connection { connection with cluster := next }
  | clientDone (next : Cluster V) (free : connection.stuck = false)
      (step : PrimaryReplication.Step allowed connection.cluster .clientDone next) :
      Step allowed limit connection { connection with cluster := next }
  | onDone (next : Cluster V) (free : connection.stuck = false)
      (step : PrimaryReplication.Step allowed connection.cluster .onDone next) :
      Step allowed limit connection { connection with cluster := next }
  | onWriteDone (free : connection.stuck = false)
      (writing : connection.queue.current.isSome = true) :
      Step allowed limit connection connection.onWriteDone
  | onTrxId (id : Nat) (free : connection.stuck = false) :
      Step allowed limit connection
        { connection with lastConfirmedTrx := id, posted := connection.posted + 1 }

/-- Any number of steps. -/
abbrev Steps (allowed : Category → Key → Prop) (limit : Nat) :
    Connection V → Connection V → Prop :=
  Relation.ReflTransGen (Step allowed limit)

/-- The first request of a follower has been read: it asks for what comes after
`startAfter`. -/
structure Begun (startAfter : Nat) (connection : Connection V) : Prop where
  started : Started connection.cluster
  confirmed : connection.lastConfirmedTrx = startAfter
  queue : connection.queue = {}
  posted : connection.posted = 1
  free : connection.stuck = false

end Connection

/-! ## What a step does to the agent -/

section Agent

variable {allowed : Category → Key → Prop}

/-- What a callback does to the agent of the cluster. -/
theorem onTransaction_cases {cluster next : Cluster V} {id : Nat} {room : Bool}
    (called : cluster.onTransaction id room = .ok next) :
    next.primary = cluster.primary ∧
    ((cluster.takes id = false ∧ next.agent.client = cluster.agent.client ∧
        next.agent.scan = cluster.agent.scan ∧
        (next.agent.lastEnqueuedTrxid = cluster.agent.lastEnqueuedTrxid ∨
          cluster.agent.state = .streaming ∧
            cluster.agent.lastEnqueuedTrxid < next.agent.lastEnqueuedTrxid) ∧
        (next.agent.state = cluster.agent.state ∨ next.agent.state = .iteratingDb)) ∨
      (cluster.takes id = true ∧ cluster.agent.state = .streaming ∧
        cluster.agent.lastEnqueuedTrxid < id ∧
        next.agent = { cluster.agent with
          state := if room then .streaming else .iteratingDb
          client := { cluster.agent.client with enqueued := cluster.agent.client.enqueued ++ [id] }
          lastEnqueuedTrxid := id })) := by
  simp only [Cluster.onTransaction] at called
  split at called
  · rename_i old
    cases called
    refine ⟨rfl, Or.inl ⟨?_, rfl, rfl, Or.inl rfl, Or.inl rfl⟩⟩
    simp [Cluster.takes, Nat.not_lt.mpr old]
  · rw [Run.bind_eq_ok] at called
    obtain ⟨agent, told, same⟩ := called
    cases same
    refine ⟨rfl, ?_⟩
    rw [Agent.onTransaction] at told
    split at told
    · rename_i notStreaming
      cases told
      refine Or.inl ⟨?_, rfl, rfl, Or.inl rfl, Or.inl rfl⟩
      simp [Cluster.takes, notStreaming]
    · rename_i streaming
      rw [not_not] at streaming
      split at told
      · rename_i level
        split at told
        · cases told
        · simp only [Client.enqueue] at told
          split at told
          · rename_i ended
            cases told
            refine Or.inl ⟨?_, rfl, rfl, Or.inr ⟨streaming, ?_⟩, Or.inr rfl⟩
            · simp [Cluster.takes, ended]
            · simp only
              omega
          · rename_i running
            cases told
            refine Or.inr ⟨?_, streaming, by omega, ?_⟩
            · simp only [Cluster.takes, streaming, level, running]
              simp
              omega
            · simp only [streaming]
      · rename_i apart
        cases told
        refine Or.inl ⟨?_, rfl, rfl, Or.inl rfl, Or.inr ?_⟩
        · simp [Cluster.takes, apart]
        · simp [Agent.setState, streaming]

/-- What a turn of the loop does to the agent. -/
theorem visit_cases (agent : Agent) (id : Nat) (rest : List Nat) (room : Bool) :
    (agent.client.expired = true ∧ agent.visit id rest room = agent.finishScan) ∨
      (agent.client.expired = false ∧ agent.client.isDone = true ∧
        agent.visit id rest room = { agent with scan := none }) ∨
      (agent.client.expired = false ∧ agent.client.isDone = false ∧
        agent.visit id rest room = { agent with
          client := { agent.client with enqueued := agent.client.enqueued ++ [id] }
          lastEnqueuedTrxid := if room then id else agent.lastEnqueuedTrxid
          scan := if room then some rest else none }) := by
  rw [Agent.visit]
  split
  · rename_i gone
    exact Or.inl ⟨gone, rfl⟩
  · rename_i there
    rw [Bool.not_eq_true] at there
    cases ended : agent.client.isDone with
    | true =>
      refine Or.inr (Or.inl ⟨there, rfl, ?_⟩)
      simp [Client.enqueue, ended]
    | false =>
      refine Or.inr (Or.inr ⟨there, rfl, ?_⟩)
      cases room <;> simp [Client.enqueue, ended]

end Agent

/-! ## A connection refines the cluster -/

namespace Connection

variable {allowed : Category → Key → Prop} {limit : Nat}

/-- A step of the connection is a step of the cluster, or leaves it alone. -/
theorem step_cluster {connection next : Connection V} (step : Step allowed limit connection next) :
    AnyStep allowed connection.cluster next.cluster ∨ next.cluster = connection.cluster := by
  cases step with
  | database after step => exact Or.inl ⟨_, step⟩
  | callback id _ free waiting called =>
    simp only [onTransaction, Run.bind_eq_ok] at called
    obtain ⟨cluster, told, same⟩ := called
    cases same
    exact Or.inl ⟨_, .callback id _ cluster waiting told⟩
  | startScan posted iterating idle => exact Or.inl ⟨_, .startScan iterating idle⟩
  | skip => exact Or.inr rfl
  | visit id rest free scanning => exact Or.inl ⟨_, .visit id rest _ scanning⟩
  | finishScan after free step => exact Or.inl ⟨_, step⟩
  | clientDone after free step => exact Or.inl ⟨_, step⟩
  | onDone after free step => exact Or.inl ⟨_, step⟩
  | onWriteDone => exact Or.inr rfl
  | onTrxId => exact Or.inr rfl

/-- The queue of the connection and the ids the cluster records. -/
def Recorded (connection : Connection V) : Prop :=
  connection.queue.put = connection.cluster.agent.client.enqueued

/-- The steps of the cluster that do not enqueue. -/
theorem enqueued_same {cluster next : Cluster V} {label : Label}
    (step : PrimaryReplication.Step allowed cluster label next)
    (quiet : label ≠ .visit ∧ ∀ id, label ≠ .callback id) :
    next.agent.client.enqueued = cluster.agent.client.enqueued := by
  cases step with
  | callback id => exact absurd rfl (quiet.2 id)
  | visit => exact absurd rfl quiet.1
  | _ => rfl

theorem recorded_step {connection next : Connection V} (recorded : Recorded connection)
    (step : Step allowed limit connection next) : Recorded next := by
  have quietly (label : Label) (after : Cluster V)
      (step : PrimaryReplication.Step allowed connection.cluster label after)
      (quiet : label ≠ .visit ∧ ∀ id, label ≠ .callback id) :
      connection.queue.put = after.agent.client.enqueued :=
    recorded.trans (enqueued_same step quiet).symm
  cases step with
  | database after step => exact quietly _ after step ⟨nofun, nofun⟩
  | callback id _ free waiting called =>
    simp only [onTransaction, Run.bind_eq_ok] at called
    obtain ⟨cluster, told, same⟩ := called
    cases same
    obtain ⟨_, ⟨passed, client, _⟩ | ⟨taken, _, _, agent⟩⟩ := onTransaction_cases told
    · simp only [Recorded, passed, client]
      exact recorded
    · simp only [Recorded, taken, agent, if_true, SendQueue.put_enqueue]
      rw [recorded]
  | startScan => exact recorded
  | skip => exact recorded
  | visit id rest free scanning =>
    rw [Recorded, Connection.visit]
    rcases visit_cases connection.cluster.agent id rest (connection.queue.room limit id) with
      ⟨gone, agent⟩ | ⟨there, ended, agent⟩ | ⟨there, running, agent⟩
    · simp only [live, gone, agent]
      exact recorded
    · simp only [live, there, ended, agent]
      exact recorded
    · simp only [live, there, running, agent, Bool.not_false, Bool.and_true, if_true,
        SendQueue.put_enqueue]
      rw [recorded]
  | finishScan after free step => exact quietly _ after step ⟨nofun, nofun⟩
  | clientDone after free step => exact quietly _ after step ⟨nofun, nofun⟩
  | onDone after free step => exact quietly _ after step ⟨nofun, nofun⟩
  | onWriteDone free writing =>
    rw [Recorded, Connection.onWriteDone, SendQueue.put_onWriteDone]
    exact recorded
  | onTrxId => exact recorded

end Connection

end Nsblast.PrimaryReplication
