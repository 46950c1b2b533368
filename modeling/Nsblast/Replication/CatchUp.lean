import Nsblast.Replication.Agent
import Nsblast.Store.Iteration

/-!
# Catching up from the log

`Agent::iterateDb` reads the log from the last id that was enqueued, and enqueues what it
finds until `enqueue` answers that the queue is full. If it never does, the agent is
switched to streaming, unless its session is over.

The log is a column family. A transaction is stored under its id, written with eight bytes
in network order, so that the order of the keys is the order of the ids. The answers of
`enqueue` are given, by the number of updates that are in the queue.
-/

namespace Nsblast.PrimaryReplication

open RealKey OrderedMap List

variable {V : Type}

/-- The content of the category of the log: each transaction under its own id, which has
64 bits. -/
structure IsLog (log : ColumnFamily (TrxRecord V)) : Prop where
  keyed : ∀ (key : Key) (record : TrxRecord V), log[key]? = some record → key = ofTrxId record.id
  number : ∀ (key : Key) (record : TrxRecord V), log[key]? = some record → record.id < 2 ^ 64

namespace Agent

/-- What `iterateDb` keeps during the iteration: the agent, and whether the queue was
filled. -/
structure Scan where
  agent : Agent
  queueWasFilled : Bool := false
  deriving DecidableEq, Repr

/-- The function `iterateDb` passes to the iteration. It asks for more if the update was
enqueued; without a client, it does not. -/
def onRecord (room : Nat → Bool) (_ : Key) (record : TrxRecord V) (scan : Scan) :
    Run (Bool × Scan) :=
  if scan.agent.client.expired then .ok (false, scan)
  else
    let (result, client) := scan.agent.client.enqueue record.id
      (room scan.agent.client.enqueued.length)
    if result then .ok (true, { scan with
      agent := { scan.agent with client, lastEnqueuedTrxid := record.id } })
    else .ok (false, { scan with agent := { scan.agent with client }, queueWasFilled := true })

/-- The iteration of `iterateDb`. -/
def scanLog (agent : Agent) (log : ColumnFamily (TrxRecord V)) (room : Nat → Bool) : Run Scan :=
  iterateFromPrevT log (ofTrxId agent.lastEnqueuedTrxid) (onRecord room) true true
    { agent }

/-- `iterateDb`. -/
def iterateDb (agent : Agent) (log : ColumnFamily (TrxRecord V)) (room : Nat → Bool) :
    Run Agent := do
  let scan ← scanLog agent log room
  .ok (if scan.queueWasFilled then scan.agent else scan.agent.setState .streaming)

/-- The ids in the log behind an id. -/
def backlog (log : ColumnFamily (TrxRecord V)) (id : Nat) : List Nat :=
  (OrderedMap.above log (ofTrxId id)).map fun item => item.2.id

section backlog

variable {log : ColumnFamily (TrxRecord V)} (isLog : IsLog log)
include isLog

/-- The backlog are the ids above the given one. -/
theorem mem_backlog {id : Nat} (number : id < 2 ^ 64) (other : Nat) :
    other ∈ backlog log id ↔ id < other ∧ ∃ record, log[ofTrxId other]? = some record ∧
      record.id = other := by
  rw [backlog, mem_map]
  constructor
  · rintro ⟨⟨key, record⟩, member, rfl⟩
    obtain ⟨stored, behind⟩ := (mem_above _ _ _).mp member
    have isKey := isLog.keyed key record stored
    rw [isKey, compare_ofTrxId number (isLog.number key record stored), Nat.compare_eq_lt] at behind
    rw [isKey] at stored
    exact ⟨behind, record, stored, rfl⟩
  · rintro ⟨above, record, stored, rfl⟩
    refine ⟨(ofTrxId record.id, record), (mem_above _ _ _).mpr ⟨stored, ?_⟩, rfl⟩
    rw [compare_ofTrxId number (isLog.number _ record stored), Nat.compare_eq_lt]
    exact above

/-- It is in increasing order. -/
theorem backlog_increases (id : Nat) : (backlog log id).Pairwise (· < ·) := by
  have sorted : (OrderedMap.above log (ofTrxId id)).Pairwise (OrderedMap.Before compare) :=
    (before_sorted log).filter _
  rw [backlog, pairwise_map]
  apply List.Pairwise.imp_of_mem _ sorted
  intro first second isFirst isSecond before
  have firstStored := ((mem_above _ _ _).mp isFirst).1
  have secondStored := ((mem_above _ _ _).mp isSecond).1
  rw [OrderedMap.Before, isLog.keyed _ _ firstStored, isLog.keyed _ _ secondStored,
    compare_ofTrxId (isLog.number _ _ firstStored) (isLog.number _ _ secondStored),
    Nat.compare_eq_lt] at before
  exact before

end backlog

/-- An agent whose client has enqueued these ids. -/
def took (agent : Agent) (ids : List Nat) : Agent :=
  { agent with
    client := { agent.client with enqueued := agent.client.enqueued ++ ids }
    lastEnqueuedTrxid := ids.getLastD agent.lastEnqueuedTrxid }

@[simp] theorem took_nil (agent : Agent) : agent.took [] = agent := by
  simp [took]

theorem took_cons (agent : Agent) (id : Nat) (rest : List Nat) :
    agent.took (id :: rest) = (agent.took [id]).took rest := by
  simp only [took, getLastD_cons, append_assoc, singleton_append, getLastD_nil]

/-- One turn of the iteration enqueues the id and asks for more, or ends the iteration with
a queue that is full. -/
theorem onRecord_cases (room : Nat → Bool) (key : Key) (record : TrxRecord V) {scan : Scan}
    (present : scan.agent.client.expired = false) :
    onRecord room key record scan = .ok (true, { scan with agent := scan.agent.took [record.id] }) ∨
      ∃ last, onRecord room key record scan = .ok (false, last) ∧ last.queueWasFilled = true := by
  by_cases isDone : scan.agent.client.isDone = true
  · simp [onRecord, present, Client.enqueue, isDone]
  · by_cases hasRoom : room scan.agent.client.enqueued.length = true
    · simp [onRecord, present, Client.enqueue, isDone, hasRoom, took]
    · simp [onRecord, present, Client.enqueue, isDone, hasRoom]

/-- Over the whole iteration: all keys of the class are enqueued, and the last id moves
along, unless the queue was filled. -/
theorem iterateWhile_cases (room : Nat → Bool) (cursor : Key) (items : List (Key × TrxRecord V))
    (scan : Scan) (present : scan.agent.client.expired = false)
    (same : ∀ item ∈ items, isSameKeyClass cursor item.1 = true) :
    iterateWhile cursor (onRecord room) items scan =
        .ok { scan with agent := scan.agent.took (items.map fun item => item.2.id) } ∨
      ∃ last, iterateWhile cursor (onRecord room) items scan = .ok last ∧
        last.queueWasFilled = true := by
  induction items generalizing scan with
  | nil =>
    left
    simp [iterateWhile]
  | cons item rest ih =>
    obtain ⟨key, record⟩ := item
    rw [iterateWhile, if_pos (same _ mem_cons_self)]
    rcases onRecord_cases room key record present with enqueued | ⟨last, filled, isFilled⟩
    · rw [enqueued, Run.bind_ok, map_cons,
        took_cons scan.agent record.id (rest.map fun item => item.2.id)]
      exact ih { scan with agent := scan.agent.took [record.id] } present fun other member =>
        same other (mem_cons_of_mem _ member)
    · right
      rw [filled, Run.bind_ok]
      exact ⟨last, rfl, isFilled⟩

/-- A catch-up during which the queue is never filled enqueues exactly the transactions in
the log above the last id that was enqueued, in the order of their ids. The last id is then
the highest of them, and the agent streams unless its session is over. -/
theorem iterateDb_enqueues_backlog (agent : Agent) (log : ColumnFamily (TrxRecord V))
    (room : Nat → Bool) (isLog : IsLog log) (number : agent.lastEnqueuedTrxid < 2 ^ 64)
    (present : agent.client.expired = false)
    (accepted : ∀ scan, agent.scanLog log room = .ok scan → scan.queueWasFilled = false) :
    ∃ ids : List Nat, ids.Pairwise (· < ·) ∧
      (∀ id, id ∈ ids ↔ agent.lastEnqueuedTrxid < id ∧
        ∃ record, log[ofTrxId id]? = some record ∧ record.id = id) ∧
      agent.iterateDb log room = .ok { agent with
        client := { agent.client with enqueued := agent.client.enqueued ++ ids }
        lastEnqueuedTrxid := ids.getLastD agent.lastEnqueuedTrxid
        state := if agent.state = .done then .done else .streaming } := by
  refine ⟨backlog log agent.lastEnqueuedTrxid, backlog_increases isLog _, mem_backlog isLog number, ?_⟩
  have same : ∀ item ∈ OrderedMap.above log (ofTrxId agent.lastEnqueuedTrxid),
      isSameKeyClass (ofTrxId agent.lastEnqueuedTrxid) item.1 = true := by
    intro item member
    rw [isLog.keyed item.1 item.2 ((mem_above _ _ _).mp member).1]
    exact isSameKeyClass_ofTrxId _ _
  have scanned := iterateWhile_cases room _ _ { agent } present same
  rw [← fromPrev_forward] at scanned
  rcases scanned with enqueued | ⟨last, filled, isFilled⟩
  · rw [iterateDb, scanLog, iterateFromPrevT, enqueued, Run.bind_ok]
    rw [fromPrev_forward]
    rfl
  · rw [accepted last filled] at isFilled
    cases isFilled

/-- A log with the ids 2 and 258. -/
def gapLog : ColumnFamily (TrxRecord Unit) :=
  ((∅ : ColumnFamily (TrxRecord Unit)).insert (ofTrxId 258) ⟨258, []⟩).insert
    (ofTrxId 2) ⟨2, []⟩

theorem gapLog_isLog : IsLog gapLog := by
  have stored : ∀ (key : Key) (record : TrxRecord Unit), gapLog[key]? = some record →
      (key = ofTrxId 258 ∧ record = ⟨258, []⟩) ∨ (key = ofTrxId 2 ∧ record = ⟨2, []⟩) := by
    intro key record stored
    rw [gapLog, Std.ExtTreeMap.getElem?_insert] at stored
    split at stored
    · rename_i isKey
      cases stored
      exact .inr ⟨(Std.LawfulEqCmp.eq_of_compare isKey).symm, rfl⟩
    · rw [Std.ExtTreeMap.getElem?_insert] at stored
      split at stored
      · rename_i isKey
        cases stored
        exact .inl ⟨(Std.LawfulEqCmp.eq_of_compare isKey).symm, rfl⟩
      · simp at stored
  constructor
  · intro key record isStored
    rcases stored key record isStored with ⟨rfl, rfl⟩ | ⟨rfl, rfl⟩ <;> rfl
  · intro key record isStored
    rcases stored key record isStored with ⟨rfl, rfl⟩ | ⟨rfl, rfl⟩ <;> decide

/-- A follower that has nothing yet gets both, and one that stands in the gap gets the
second. -/
theorem gapLog_enqueued :
    (∃ ids, ids.Pairwise (· < ·) ∧
      (∀ id, id ∈ ids ↔ 0 < id ∧ ∃ record, gapLog[ofTrxId id]? = some record ∧ record.id = id) ∧
      ({} : Agent).iterateDb gapLog (fun _ => true) =
        .ok ⟨.streaming, ids.getLastD 0, none, { enqueued := [] ++ ids }⟩) ∧
    ({ lastEnqueuedTrxid := 100 } : Agent).iterateDb gapLog (fun _ => true) =
      .ok ⟨.streaming, 258, none, { enqueued := [258] }⟩ := by
  have accepted : ({} : Agent).scanLog gapLog (fun _ => true) =
      .ok { agent := ({} : Agent).took [2, 258] } := by
    decide +kernel
  refine ⟨iterateDb_enqueues_backlog {} gapLog (fun _ => true) gapLog_isLog (by decide) rfl ?_,
    by decide +kernel⟩
  intro scan isScan
  cases accepted.symm.trans isScan
  rfl

end Agent

end Nsblast.PrimaryReplication
