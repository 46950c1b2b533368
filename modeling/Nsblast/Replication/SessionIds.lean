import Nsblast.Replication.SendQueue

/-!
# Which updates a session sends, and how often

Streaming, an agent only enqueues the transaction behind the last one it enqueued.
Iterating, it enqueues what the log has above that one. Both raise the mark, with
one exception: an update that fills the queue while the agent iterates is kept by
the queue, but the mark stays below it, and the next iteration enqueues it again.
As long as no iteration fills the queue, the ids put into it increase strictly.

The id a follower asks to resume after is only remembered as confirmed. The mark of
a new agent is zero, so that every session begins with the oldest transaction in
the log.
-/

namespace Nsblast.PrimaryReplication

open List

variable {V : Type} {allowed : Category → Key → Prop}

/-- The ids in the log, and those of open transactions, are positive. -/
def Positive (primary : Primary V) : Prop :=
  ∀ id, Stored primary id ∨ Open primary id → 0 < id

variable {after before : Primary V} {cluster : Cluster V}

theorem positive_steps (steps : Primary.Steps allowed before after) (positive : Positive before) :
    Positive after := by
  induction steps with
  | refl => exact positive
  | tail _ step ih =>
    rintro id (stored | opened)
    · exact ih id ((step_stored step id).2 stored)
    · rcases step_open step id opened with earlier | ⟨rfl, _⟩
      · exact ih id (Or.inr earlier)
      · exact Nat.succ_pos _

theorem Started.positive (started : Started cluster) :
    Positive cluster.primary := by
  rintro id (stored | ⟨t, session, _, opened, _⟩)
  · exact (started.numbered id stored).1
  · cases (started.closed t).symm.trans opened

namespace Connection

variable {limit : Nat}

/-- What the iterator has still to visit is in order and above the mark, and an
agent that streams has no iterator. -/
structure Scanning (agent : Agent) : Prop where
  ahead : ∀ rest, agent.scan = some rest → rest.Pairwise (· < ·)
  above : ∀ rest, agent.scan = some rest → ∀ id ∈ rest, agent.lastEnqueuedTrxid < id
  streaming : agent.state = .streaming → agent.scan = none

/-- What was enqueued increases, up to the mark. -/
structure Ascending (agent : Agent) : Prop where
  sorted : agent.client.enqueued.Pairwise (· < ·)
  below : ∀ id ∈ agent.client.enqueued, id ≤ agent.lastEnqueuedTrxid

theorem Scanning.startScan (agent : Agent) (iterating : agent.state = .iteratingDb)
    (trxlog : Std.ExtTreeMap Nat (TrxRecord V)) : Scanning (agent.startScan trxlog) where
  ahead := by
    rintro _ ⟨⟩
    exact scan_sorted _ _
  above := by
    rintro _ ⟨⟩ id member
    exact ((mem_scan _ _ id).mp member).2
  streaming := fun streaming => by cases iterating.symm.trans streaming

variable {agent : Agent}

/-- Without an iterator there is nothing to keep. -/
theorem Scanning.of_none (nothing : agent.scan = none) : Scanning agent where
  ahead := fun _ found => by cases nothing.symm.trans found
  above := fun _ found => by cases nothing.symm.trans found
  streaming := fun _ => nothing

theorem Scanning.visit (scanning : Scanning agent) (id : Nat) (rest : List Nat) (room : Bool)
    (visiting : agent.scan = some (id :: rest)) : Scanning (agent.visit id rest room) := by
  rcases visit_cases agent id rest room with ⟨_, same⟩ | ⟨_, _, same⟩ | ⟨_, _, same⟩
  · rw [same]
    exact .of_none rfl
  · rw [same]
    exact .of_none rfl
  · rw [same]
    cases room with
    | false => exact .of_none rfl
    | true =>
      obtain ⟨before, sorted⟩ := pairwise_cons.mp (scanning.ahead _ visiting)
      refine ⟨?_, ?_, ?_⟩
      · rintro _ ⟨⟩
        exact sorted
      · rintro _ ⟨⟩
        exact before
      · intro streaming
        cases (scanning.streaming streaming).symm.trans visiting

theorem Scanning.callback {next : Cluster V} (scanning : Scanning cluster.agent) (id : Nat)
    (room : Bool) (called : cluster.onTransaction id room = .ok next) : Scanning next.agent := by
  obtain ⟨_, ⟨_, _, scan, mark, state⟩ | ⟨_, streaming, _, agent⟩⟩ := onTransaction_cases called
  · have scanless : cluster.agent.state = .streaming → next.agent.scan = none :=
      fun streaming => scan.trans (scanning.streaming streaming)
    refine ⟨?_, ?_, ?_⟩
    · rw [scan]
      exact scanning.ahead
    · intro rest found
      rcases mark with same | ⟨streaming, _⟩
      · rw [same]
        exact scanning.above rest (scan.symm.trans found)
      · cases (scanless streaming).symm.trans found
    · intro streaming
      rcases state with same | iterating
      · exact scanless (same.symm.trans streaming)
      · cases iterating.symm.trans streaming
  · rw [agent]
    exact .of_none (scanning.streaming streaming)

/-- An update above the mark, which becomes the mark. -/
theorem Ascending.append (ascending : Ascending agent) (id : Nat)
    (new : agent.lastEnqueuedTrxid < id) :
    (agent.client.enqueued ++ [id]).Pairwise (· < ·) ∧
      ∀ other ∈ agent.client.enqueued ++ [id], other ≤ id := by
  rw [pairwise_append]
  refine ⟨⟨ascending.sorted, pairwise_singleton _ _, ?_⟩, ?_⟩
  · intro other member last same
    rw [mem_singleton.mp same]
    exact Nat.lt_of_le_of_lt (ascending.below other member) new
  · intro other member
    rcases mem_append.mp member with earlier | last
    · have bound := ascending.below other earlier
      omega
    · exact Nat.le_of_eq (mem_singleton.mp last)

/-- A turn of the loop that does not fill the queue. -/
theorem Ascending.visit (ascending : Ascending agent) (scanning : Scanning agent)
    (id : Nat) (rest : List Nat) (room : Bool) (visiting : agent.scan = some (id :: rest))
    (unfilled : agent.client.expired = false → agent.client.isDone = false → room = true) :
    Ascending (agent.visit id rest room) := by
  rcases visit_cases agent id rest room with ⟨_, same⟩ | ⟨_, _, same⟩ | ⟨there, running, same⟩
  · rw [same]
    exact ⟨ascending.sorted, ascending.below⟩
  · rw [same]
    exact ⟨ascending.sorted, ascending.below⟩
  · rw [same, unfilled there running]
    obtain ⟨increasing, bounded⟩ :=
      ascending.append id (scanning.above _ visiting id mem_cons_self)
    exact ⟨increasing, bounded⟩

/-- A callback, whatever the queue answers. -/
theorem Ascending.callback {next : Cluster V} (ascending : Ascending cluster.agent) (id : Nat)
    (room : Bool) (called : cluster.onTransaction id room = .ok next) :
    Ascending next.agent := by
  obtain ⟨_, ⟨_, client, _, mark, _⟩ | ⟨_, _, new, agent⟩⟩ := onTransaction_cases called
  · refine ⟨?_, ?_⟩
    · rw [client]
      exact ascending.sorted
    · intro other member
      rw [client] at member
      have bound := ascending.below other member
      rcases mark with same | ⟨_, raised⟩
      · rw [same]
        exact bound
      · omega
  · obtain ⟨increasing, bounded⟩ := ascending.append id new
    rw [agent]
    exact ⟨increasing, bounded⟩

/-! ## What holds in every run -/

/-- The ids the agent knows are in the log, and the agent ends with its client. -/
structure InLog (agent : Agent) (primary : Primary V) : Prop where
  scanning : Scanning agent
  stored : ∀ id ∈ agent.client.enqueued, Stored primary id
  found : ∀ rest, agent.scan = some rest → ∀ id ∈ rest, Stored primary id
  ended : agent.state = .done → agent.client.expired = true

/-- What holds of a session in every run. -/
structure Sound (connection : Connection V) : Prop
    extends InLog connection.cluster.agent connection.cluster.primary where
  recorded : Recorded connection
  waiting : Waiting connection.cluster

/-- The log is changed by steps of the database only. -/
theorem anyStep_primary {next : Cluster V} (step : AnyStep allowed cluster next) :
    Primary.Steps allowed cluster.primary next.primary := by
  obtain ⟨_, step⟩ := step
  cases step with
  | database after step => exact .single step
  | callback id room _ waiting called => rw [(onTransaction_cases called).1]
  | _ => exact .refl

variable {connection next : Connection V}

theorem step_primary (step : Step allowed limit connection next) :
    Primary.Steps allowed connection.cluster.primary next.cluster.primary := by
  rcases step_cluster step with step | same
  · exact anyStep_primary step
  · rw [same]

theorem stored_steps (steps : Primary.Steps allowed before after) {id : Nat}
    (stored : Stored before id) : Stored after id := by
  induction steps with
  | refl => exact stored
  | tail _ step ih => exact (step_stored step id).1 ih

theorem steps_primary {last : Connection V} (run : Steps allowed limit connection last) :
    Primary.Steps allowed connection.cluster.primary last.cluster.primary := by
  induction run with
  | refl => exact .refl
  | tail _ step ih => exact ih.trans (step_primary step)

namespace InLog

variable {primary : Primary V}

/-- What is in the log stays there. -/
theorem later {next : Primary V} (inLog : InLog agent primary)
    (steps : Primary.Steps allowed primary next) : InLog agent next :=
  ⟨inLog.scanning, fun id member => stored_steps steps (inLog.stored id member),
    fun rest found id member => stored_steps steps (inLog.found rest found id member), inLog.ended⟩

/-- One more id of the log is enqueued. -/
theorem append (inLog : InLog agent primary) {id : Nat} (here : Stored primary id) :
    ∀ other ∈ agent.client.enqueued ++ [id], Stored primary other := by
  intro other member
  rcases mem_append.mp member with earlier | last
  · exact inLog.stored other earlier
  · rw [mem_singleton.mp last]
    exact here

theorem callback {next : Cluster V} {id : Nat} {room : Bool}
    (inLog : InLog cluster.agent cluster.primary) (here : Stored cluster.primary id)
    (called : cluster.onTransaction id room = .ok next) : InLog next.agent next.primary := by
  have scanning := inLog.scanning.callback id _ called
  obtain ⟨same, ⟨_, client, scan, _, state⟩ | ⟨_, _, _, agent⟩⟩ := onTransaction_cases called
  · rw [same]
    refine ⟨scanning, ?_, ?_, ?_⟩
    · rw [client]
      exact inLog.stored
    · rw [scan]
      exact inLog.found
    · intro finished
      rw [client]
      rcases state with same | iterating
      · exact inLog.ended (same.symm.trans finished)
      · cases iterating.symm.trans finished
  · rw [same]
    refine ⟨scanning, ?_, ?_, ?_⟩ <;> rw [agent]
    · exact inLog.append here
    · exact inLog.found
    · intro finished
      split at finished <;> cases finished

theorem startScan (inLog : InLog connection.cluster.agent connection.cluster.primary)
    (iterating : connection.cluster.agent.state = .iteratingDb) :
    InLog connection.startScan.cluster.agent connection.cluster.primary := by
  refine ⟨.startScan _ iterating _, inLog.stored, ?_, inLog.ended⟩
  rintro _ ⟨⟩ id member
  exact ((mem_scan _ _ id).mp member).1

theorem finishScan (inLog : InLog agent primary) : InLog agent.finishScan primary := by
  refine ⟨.of_none rfl, inLog.stored, by rintro _ ⟨⟩, ?_⟩
  intro finished
  apply inLog.ended
  by_contra running
  simp only [Agent.finishScan, Agent.setState, running, if_false] at finished
  cases finished

theorem visit {id : Nat} {rest : List Nat} (inLog : InLog agent primary)
    (visiting : agent.scan = some (id :: rest)) (room : Bool) :
    InLog (agent.visit id rest room) primary := by
  have scanning := inLog.scanning.visit id rest room visiting
  have here := inLog.found _ visiting
  rcases visit_cases agent id rest room with ⟨_, same⟩ | ⟨_, _, same⟩ | ⟨_, _, same⟩
  · rw [same]
    exact inLog.finishScan
  · rw [same] at scanning ⊢
    exact ⟨scanning, inLog.stored, by rintro _ ⟨⟩, inLog.ended⟩
  · rw [same] at scanning ⊢
    refine ⟨scanning, inLog.append (here id mem_cons_self), ?_, inLog.ended⟩
    intro later found other member
    dsimp only at found
    split at found
    · cases found
      exact here other (mem_cons_of_mem id member)
    · cases found

end InLog

/-- Step. -/
theorem sound_step (sound : Sound connection)
    (step : Step allowed limit connection next) : Sound next := by
  have waiting : Waiting next.cluster := by
    rcases step_cluster step with ⟨label, step⟩ | same
    · exact waiting_step sound.waiting step
    · rw [same]
      exact sound.waiting
  refine ⟨?_, recorded_step sound.recorded step, waiting⟩
  have later := sound.toInLog.later (step_primary step)
  cases step with
  | database after step =>
    cases step
    exact later
  | callback id _ free pending called =>
    simp only [onTransaction, Run.bind_eq_ok] at called
    obtain ⟨cluster, told, same⟩ := called
    cases same
    exact sound.toInLog.callback (sound.waiting id pending) told
  | startScan posted iterating idle => exact sound.toInLog.startScan iterating
  | visit id rest free scanning => exact sound.toInLog.visit scanning _
  | finishScan after free step =>
    cases step
    exact sound.toInLog.finishScan
  | clientDone after free step =>
    cases step
    exact ⟨⟨sound.scanning.ahead, sound.scanning.above, sound.scanning.streaming⟩, sound.stored,
      sound.found, sound.ended⟩
  | onDone after free step =>
    cases step
    exact ⟨⟨sound.scanning.ahead, sound.scanning.above, by simp⟩, sound.stored, sound.found,
      fun _ => rfl⟩
  | _ => exact later

theorem Begun.sound {startAfter : Nat}
    (begun : Begun startAfter connection) : Sound connection := by
  have agent := begun.started.agent
  refine ⟨?_, ?_, ?_⟩
  · rw [agent]
    exact ⟨.of_none rfl, by simp, by simp, by simp⟩
  · rw [Recorded, begun.queue, agent]
    rfl
  · rw [Waiting, begun.started.awaiting]
    simp

/-- Run. -/
theorem sound_run {start last : Connection V} (sound : Sound start)
    (run : Steps allowed limit start last) : Sound last := by
  induction run with
  | refl => exact sound
  | tail _ step ih => exact sound_step ih step

/-- A session is a run of the agent, whatever its queue is doing: the ids that were written to
the stream or wait for it are those the agent has enqueued, in that order, and they are in the
log. -/
theorem session_refines_agent (allowed : Category → Key → Prop) (limit startAfter : Nat)
    (start last : Connection V) (begun : Begun startAfter start)
    (run : Steps allowed limit start last) :
    Relation.ReflTransGen (AnyStep allowed) start.cluster last.cluster ∧
      last.queue.sent ++ last.queue.pending = last.cluster.agent.client.enqueued ∧
      ∀ id ∈ last.queue.sent ++ last.queue.pending, Stored last.cluster.primary id := by
  have sound := sound_run begun.sound run
  have recorded := sound.recorded
  refine ⟨?_, recorded, ?_⟩
  · clear sound recorded
    induction run with
    | refl => exact .refl
    | tail _ step ih =>
      rcases step_cluster step with step | same
      · exact ih.tail step
      · rw [same]
        exact ih
  · intro id member
    exact sound.stored id (recorded ▸ member)

/-! ## No update twice -/

/-- A turn of the loop that puts an update into the queue leaves no more than the
limit waiting. -/
def Unfilled (limit : Nat) (connection : Connection V) : Prop :=
  ∀ id rest, connection.stuck = false → connection.cluster.agent.scan = some (id :: rest) →
    connection.live = true → connection.queue.room limit id = true

/-- What a turn of the loop leaves behind when the client is there. -/
theorem visit_live (limit id : Nat) (rest : List Nat) (there : connection.live = true) :
    (connection.visit limit id rest).queue.put = connection.queue.put ++ [id] ∧
      (connection.visit limit id rest).cluster.agent =
        { connection.cluster.agent with
          client := { connection.cluster.agent.client with
            enqueued := connection.cluster.agent.client.enqueued ++ [id] }
          lastEnqueuedTrxid :=
            if connection.queue.room limit id then id
            else connection.cluster.agent.lastEnqueuedTrxid
          scan := if connection.queue.room limit id then some rest else none } := by
  have both := there
  rw [live, Bool.and_eq_true, Bool.not_eq_true', Bool.not_eq_true'] at both
  constructor
  · rw [Connection.visit, there, if_pos rfl, SendQueue.put_enqueue]
  · rcases visit_cases connection.cluster.agent id rest (connection.queue.room limit id) with
      ⟨gone, _⟩ | ⟨_, finished, _⟩ | ⟨_, _, agent⟩
    · cases both.1.symm.trans gone
    · cases both.2.symm.trans finished
    · exact agent

/-- The first id of a new iterator is not above any stored id above the mark. -/
theorem scan_first {trxlog : Std.ExtTreeMap Nat (TrxRecord V)} {mark id : Nat}
    (stored : id ∈ trxlog) (above : mark < id) :
    ∃ first others, (OrderedMap.above trxlog mark).map Prod.fst = first :: others ∧
      first ≤ id := by
  have listed := (mem_scan trxlog mark id).mpr ⟨stored, above⟩
  have sorted := scan_sorted trxlog mark
  cases visits : (OrderedMap.above trxlog mark).map Prod.fst with
  | nil =>
    rw [visits] at listed
    cases listed
  | cons first others =>
    rw [visits] at listed sorted
    refine ⟨first, others, rfl, ?_⟩
    rcases mem_cons.mp listed with same | later
    · exact Nat.le_of_eq same.symm
    · exact Nat.le_of_lt ((pairwise_cons.mp sorted).1 id later)

/-- An iteration begins with the oldest transaction above the mark. -/
theorem scan_puts (connection : Connection V) (free : connection.stuck = false)
    (posted : 0 < connection.posted) (iterating : connection.cluster.agent.state = .iteratingDb)
    (idle : connection.cluster.agent.scan = none) (there : connection.live = true) (id : Nat)
    (stored : Stored connection.cluster.primary id)
    (above : connection.cluster.agent.lastEnqueuedTrxid < id) :
    ∃ last first, Steps allowed limit connection last ∧ first ≤ id ∧
      last.queue.put = connection.queue.put ++ [first] := by
  obtain ⟨first, others, visits, low⟩ := scan_first stored above
  have starts : Step allowed limit connection connection.startScan :=
    .startScan posted iterating idle
  have visited : Step allowed limit connection.startScan
      (connection.startScan.visit limit first others) :=
    .visit first others free (congrArg some visits)
  exact ⟨_, first, (Relation.ReflTransGen.single starts).tail visited, low,
    (visit_live limit first others there).1⟩

/-- Steps that are taken while no turn of an iteration fills the queue. -/
abbrev CalmSteps (allowed : Category → Key → Prop) (limit : Nat) :
    Connection V → Connection V → Prop :=
  Relation.ReflTransGen fun before after => Unfilled limit before ∧ Step allowed limit before after

theorem CalmSteps.steps {start last : Connection V} (run : CalmSteps allowed limit start last) :
    Steps allowed limit start last :=
  Relation.ReflTransGen.mono (fun _ _ step => step.2) start last run

/-- A primary with two transactions in its log, and a follower that asks for what
comes after `startAfter`. -/
def twoLogged (startAfter : Nat) : Connection Nat where
  cluster := {
    primary := {
      db := ⟨fun _ => ∅,
        ((∅ : Std.ExtTreeMap Nat (TrxRecord Nat)).insert 1
          ⟨1, [⟨RealKey.ofName [0x61], 2, some 7⟩]⟩).insert 2
          ⟨2, [⟨RealKey.ofName [0x61], 2, some 8⟩]⟩⟩
      trxId := 2
      sessions := fun _ => none }
    awaiting := []
    lastTrxid := 0
    agent := {} }
  lastConfirmedTrx := startAfter

theorem twoLogged_begun (startAfter : Nat) : Begun startAfter (twoLogged startAfter) where
  started := {
    closed := fun _ => rfl
    numbered := by
      intro id stored
      simp only [Stored, twoLogged, Std.ExtTreeMap.mem_insert, Std.LawfulEqCmp.compare_eq_iff_eq]
        at stored
      rcases stored with rfl | rfl | none
      · exact ⟨by decide, Nat.le_refl 2⟩
      · exact ⟨by decide, Nat.le_succ 1⟩
      · simp at none
    awaiting := rfl
    lastTrxid := rfl
    agent := rfl }
  confirmed := rfl
  queue := rfl
  posted := rfl
  free := rfl

/-- The session has begun to send the first of the two. -/
theorem two_logged_refines_agent :
    ∃ last, Steps Primary.Named 100 (twoLogged 0) last ∧ last.queue.sent = [1] ∧
      Relation.ReflTransGen (AnyStep Primary.Named) (twoLogged 0).cluster last.cluster := by
  have run : Steps Primary.Named 100 (twoLogged 0) _ :=
    (Relation.ReflTransGen.refl.tail (.startScan (by decide) rfl rfl)).tail
      (.visit 1 [2] rfl (by decide +kernel))
  exact ⟨_, run, by decide +kernel,
    (session_refines_agent Primary.Named 100 0 (twoLogged 0) _ (twoLogged_begun 0) run).1⟩

/-- The database moves on while the agent waits. -/
theorem database_run (limit : Nat)
    (steps : Primary.Steps allowed connection.cluster.primary after) :
    ∃ awaiting, Steps allowed limit connection
      { connection with cluster := { connection.cluster with primary := after, awaiting } } := by
  induction steps with
  | refl => exact ⟨connection.cluster.awaiting, .refl⟩
  | tail _ step ih =>
    obtain ⟨awaiting, run⟩ := ih
    exact ⟨_, run.tail (.database _ (.database _ step))⟩

/-- Every update of a session comes after the transaction its follower asked to
resume after exactly when no transaction up to that one is in the log, nor ever gets
into it. -/
theorem session_resumes_iff_log_above (allowed : Category → Key → Prop) (limit : Nat)
    (startAfter : Nat) (start : Connection V) (begun : Begun startAfter start) :
    (∀ last, Steps allowed limit start last → ∀ id ∈ last.queue.put, startAfter < id) ↔
      ∀ primary, Primary.Steps allowed start.cluster.primary primary →
        ∀ id, Stored primary id → startAfter < id := by
  have agent := begun.started.agent
  constructor
  · intro resumes primary steps id stored
    have positive := positive_steps steps begun.started.positive id (Or.inl stored)
    obtain ⟨awaiting, moved⟩ := database_run limit steps
    let reached : Connection V :=
      { start with cluster := { start.cluster with primary, awaiting } }
    have sameAgent : reached.cluster.agent = {} := agent
    have there : reached.live = true := by
      rw [live, sameAgent]
      rfl
    obtain ⟨last, first, run, low, put⟩ := scan_puts reached begun.free
      (by rw [show reached.posted = 1 from begun.posted]; exact Nat.one_pos)
      (by rw [sameAgent]) (by rw [sameAgent]) there id stored (by rw [sameAgent]; exact positive)
    have enqueued := resumes last (moved.trans run) first (by
      rw [put]
      exact mem_append_right _ mem_cons_self)
    exact Nat.lt_of_lt_of_le enqueued low
  · intro above last run id member
    have sound := sound_run begun.sound run
    rw [sound.recorded] at member
    exact above _ (steps_primary run) id (sound.stored id member)

theorem two_logged_resumes_iff :
    (∀ last, Steps Primary.Named 100 (twoLogged 1) last → ∀ id ∈ last.queue.put, 1 < id) ↔
      ∀ primary, Primary.Steps Primary.Named (twoLogged 1).cluster.primary primary →
        ∀ id, Stored primary id → 1 < id :=
  session_resumes_iff_log_above Primary.Named 100 1 (twoLogged 1) (twoLogged_begun 1)

/-- A follower that has both transactions gets the first one again. -/
theorem resumed_session_sends_old_update :
    ∃ last, Begun 2 (twoLogged 2) ∧ Steps Primary.Named 100 (twoLogged 2) last ∧
      1 ∈ last.queue.put := by
  have run : Steps Primary.Named 100 (twoLogged 2) ((twoLogged 2).startScan.visit 100 1 [2]) :=
    (Relation.ReflTransGen.refl.tail (.startScan (by decide) rfl rfl)).tail
      (.visit 1 [2] rfl (by decide +kernel))
  exact ⟨_, twoLogged_begun 2, run, by decide +kernel⟩

end Connection

end Nsblast.PrimaryReplication
