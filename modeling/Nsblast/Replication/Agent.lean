import Nsblast.Store.Primary

/-!
# Sending transactions to a follower

`PrimaryReplication` is told about every committed transaction by a callback and
passes it to its agents, one for each follower. An agent is in one of two modes.
While it iterates the database it ignores the callbacks and enqueues what it finds
in the log above the last id it has enqueued. While it streams it enqueues what
the callbacks bring, as long as the previous transaction of the callbacks is the
last one it has enqueued.

Numbering, commit and callback of a transaction are separate steps, and so are
the creation of the iterator, each turn of its loop and the end of the loop. The
client behind the agent has a queue; whether it has room left after an update is
left open, as it depends on the network.
-/

namespace Nsblast.PrimaryReplication

variable {V : Type}

/-- `Agent::State`. -/
inductive State where
  | iteratingDb
  | streaming
  | done
  deriving DecidableEq, Repr

/-- `GrpcPrimary::SyncClient`: whether its stream has ended, whether the object is
gone, and the ids of all updates it has put into its queue so far. -/
structure Client where
  isDone : Bool := false
  expired : Bool := false
  enqueued : List Nat := []
  deriving DecidableEq, Repr

/-- `SyncClient::enqueue`. An update that fills the queue is kept, but the answer
is false, as it is for a stream that has ended. -/
def Client.enqueue (client : Client) (id : Nat) (room : Bool) : Bool × Client :=
  if client.isDone then (false, client)
  else (room, { client with enqueued := client.enqueued ++ [id] })

/-- `PrimaryReplication::Agent`. `scan` holds the ids its iterator has still to
visit while `iterateDb` runs. -/
structure Agent where
  state : State := .iteratingDb
  lastEnqueuedTrxid : Nat := 0
  scan : Option (List Nat) := none
  client : Client := {}
  deriving DecidableEq, Repr

namespace Agent

/-- `setState`: the end is final. -/
def setState (agent : Agent) (state : State) : Agent :=
  { agent with state := if agent.state = .done then .done else state }

/-- The start of `iterateDb`. `iterateFromPrevT` finds the last key that is not
above the given one and skips it, or starts at the first key if there is none;
what it visits are the keys above the given one. -/
def startScan (agent : Agent) (trxlog : Std.ExtTreeMap Nat (TrxRecord V)) : Agent :=
  { agent with scan := some ((OrderedMap.above trxlog agent.lastEnqueuedTrxid).map Prod.fst) }

/-- The end of `iterateDb` when the queue was not filled. -/
def finishScan (agent : Agent) : Agent := setState { agent with scan := none } .streaming

/-- One turn of the loop in `iterateDb`. Without a client the loop ends like one
that has seen everything; when the queue is full it ends in the same mode. -/
def visit (agent : Agent) (id : Nat) (rest : List Nat) (room : Bool) : Agent :=
  if agent.client.expired then finishScan agent
  else
    let answer := agent.client.enqueue id room
    if answer.1 then
      { agent with client := answer.2, lastEnqueuedTrxid := id, scan := some rest }
    else { agent with client := answer.2, scan := none }

/-- `Agent::onTransaction`. The watermark moves whatever `enqueue` answers. -/
def onTransaction (agent : Agent) (prevTrxId id : Nat) (room : Bool) : Run Agent :=
  if agent.state ≠ .streaming then .ok agent
  else if prevTrxId = agent.lastEnqueuedTrxid then
    if agent.client.expired then .aborted
    else
      let answer := agent.client.enqueue id room
      .ok { agent with
        state := if answer.1 then agent.state else .iteratingDb
        client := answer.2
        lastEnqueuedTrxid := id }
  else .ok (setState agent .iteratingDb)

end Agent

/-- The primary with one of its agents. `awaiting` are the ids of the committed
transactions whose callback has not been delivered. -/
structure Cluster (V : Type) where
  primary : Primary V
  awaiting : List Nat
  lastTrxid : Nat
  agent : Agent

/-- The transaction with this id is in the log. -/
def Stored (primary : Primary V) (id : Nat) : Prop := id ∈ primary.db.trxlog

/-- A transaction with this id is numbered and has not committed. -/
def Open (primary : Primary V) (id : Nat) : Prop :=
  ∃ t session record, primary.sessions t = some session ∧ session.trx.record = some record ∧
    record.id = id

/-- The ids that a step of the database has added to the log. -/
def newlyStored (before after : Primary V) : List Nat :=
  after.db.trxlog.keys.filter fun id => !before.db.trxlog.contains id

/-- `PrimaryReplication::onTransaction`, for the agent. A transaction with an id
that is not above the last one is dropped. -/
def Cluster.onTransaction (cluster : Cluster V) (id : Nat) (room : Bool) : Run (Cluster V) :=
  let awaiting := cluster.awaiting.erase id
  if cluster.lastTrxid ≥ id then .ok { cluster with awaiting := awaiting }
  else do
    let agent ← cluster.agent.onTransaction cluster.lastTrxid id room
    pure { cluster with awaiting := awaiting, lastTrxid := id, agent := agent }

/-- What happens in one step. -/
inductive Label where
  | database
  | callback (id : Nat)
  | startScan
  | visit
  | finishScan
  | clientDone
  | onDone

/-- One step of the database, of the callbacks or of the agent. -/
inductive Step (allowed : Category → Key → Prop) (cluster : Cluster V) :
    Label → Cluster V → Prop where
  | database (next : Primary V) (step : Primary.Step allowed cluster.primary next) :
      Step allowed cluster .database { cluster with
        primary := next
        awaiting := cluster.awaiting ++ newlyStored cluster.primary next }
  | callback (id : Nat) (room : Bool) (next : Cluster V) (waiting : id ∈ cluster.awaiting)
      (called : cluster.onTransaction id room = .ok next) :
      Step allowed cluster (.callback id) next
  | startScan (iterating : cluster.agent.state = .iteratingDb)
      (free : cluster.agent.scan = none) :
      Step allowed cluster .startScan
        { cluster with agent := cluster.agent.startScan cluster.primary.db.trxlog }
  | visit (id : Nat) (rest : List Nat) (room : Bool)
      (scanning : cluster.agent.scan = some (id :: rest)) :
      Step allowed cluster .visit { cluster with agent := cluster.agent.visit id rest room }
  | finishScan (scanned : cluster.agent.scan = some []) :
      Step allowed cluster .finishScan { cluster with agent := cluster.agent.finishScan }
  | clientDone :
      Step allowed cluster .clientDone { cluster with
        agent := { cluster.agent with client := { cluster.agent.client with isDone := true } } }
  | onDone :
      Step allowed cluster .onDone { cluster with
        agent := { cluster.agent with
          state := .done
          client := { cluster.agent.client with expired := true } } }

/-- The primary after its start, with a follower that has just connected. -/
structure Started (cluster : Cluster V) : Prop where
  closed : ∀ t, cluster.primary.sessions t = none
  numbered : ∀ id, Stored cluster.primary id → 1 ≤ id ∧ id ≤ cluster.primary.trxId
  awaiting : cluster.awaiting = []
  lastTrxid : cluster.lastTrxid = 0
  agent : cluster.agent = {}

/-- All callbacks have been delivered, and the agent streams from where the
callbacks are. -/
structure CaughtUp (cluster : Cluster V) : Prop where
  delivered : cluster.awaiting = []
  streaming : cluster.agent.state = .streaming
  level : cluster.agent.lastEnqueuedTrxid = cluster.lastTrxid

end Nsblast.PrimaryReplication
