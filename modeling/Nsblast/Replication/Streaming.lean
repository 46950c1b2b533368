import Nsblast.Replication.Agent
import Nsblast.Store.LogReplay

/-!
# Which transactions reach a follower

The agent remembers one id, up to which it takes everything as enqueued. That is
right as long as transactions commit in the order of their ids, the callbacks come
in that order, and the client is there whenever something is enqueued. It then
holds in every reachable state that all transactions in the log up to that id have
been enqueued, and an agent that streams from where the callbacks are has enqueued
the whole log.

Nothing in the program enforces the order. Two callbacks in the opposite order
lose a transaction.
-/

namespace Nsblast.PrimaryReplication

open List Primary

variable {V : Type} {allowed : Category → Key → Prop}

/-! ## What a step of the database does to the ids -/

/-- The log after a commit. -/
theorem stored_commit (db : Db V) (trx : Transaction V) (id : Nat) :
    id ∈ (trx.commit db).trxlog ↔
      id ∈ db.trxlog ∨ ∃ record, trx.record = some record ∧ record.id = id := by
  cases has : trx.record with
  | none => simp [Transaction.commit, has]
  | some record =>
    simp only [Transaction.commit, has, Std.ExtTreeMap.mem_insert, Option.some.injEq, exists_eq_left']
    rw [Std.LawfulEqCmp.compare_eq_iff_eq]
    exact or_comm

variable {after before : Primary V} {cluster next : Cluster V}

/-- Only a commit adds to the log, and only the id of an open transaction. -/
theorem step_stored (step : Primary.Step allowed before after) (id : Nat) :
    (Stored before id → Stored after id) ∧
      (Stored after id → Stored before id ∨ Open before id) := by
  cases step with
  | commit t session opened ready =>
    rw [Stored, Stored, stored_commit]
    refine ⟨Or.inl, ?_⟩
    rintro (old | ⟨record, has, same⟩)
    · exact Or.inl old
    · exact Or.inr ⟨t, session, record, opened, has, same⟩
  | _ => exact ⟨fun stored => stored, Or.inl⟩

/-- Replacing a session opens no id if the new one has an open id or none. -/
theorem open_set {t id : Nat} {replaced : Option (Session V)}
    (same : ∀ session record, replaced = some session → session.trx.record = some record →
      Open before record.id) (opened : Open (before.set t replaced) id) : Open before id := by
  obtain ⟨other, session, record, here, has, rfl⟩ := opened
  rcases set_cases here with ⟨_, new⟩ | ⟨_, old⟩
  · exact same session record new has
  · exact ⟨other, session, record, old, has, rfl⟩

/-- Replacing a session by one with the same record opens no id. -/
theorem open_of_same {t id : Nat} {session next : Session V}
    (here : before.sessions t = some session) (opened : Open (before.set t (some next)) id)
    (same : next.trx.record = session.trx.record) : Open before id := by
  apply open_set _ opened
  rintro _ record ⟨⟩ has
  exact ⟨t, session, record, here, same ▸ has, rfl⟩

/-- Only numbering opens an id, and it is the next one. -/
theorem step_open (step : Primary.Step allowed before after) (id : Nat) (opened : Open after id) :
    Open before id ∨ (id = before.trxId + 1 ∧ after.trxId = before.trxId + 1) := by
  cases step with
  | start t free =>
    refine Or.inl (open_set ?_ opened)
    rintro _ record ⟨⟩ has
    cases has
  | write t session key data isNew category seen trx here idle named unlocked written =>
    exact Or.inl (open_of_same here opened (by rw [Transaction.write_eq_ok written]; rfl))
  | remove t session key category here idle named unlocked =>
    exact Or.inl (open_of_same here opened rfl)
  | seek t session key category here idle named =>
    exact Or.inl (open_of_same here opened rfl)
  | visit t session category key ck rest here placed within unlocked =>
    exact Or.inl (open_of_same here opened rfl)
  | leave t session cursor here placed ends =>
    exact Or.inl (open_of_same here opened rfl)
  | handleTrxLog t session here idle =>
    rcases session.trx.handleTrxLog_cases before.trxId with ⟨_, silent⟩ | ⟨_, numbered⟩
    · exact Or.inl (open_of_same here opened (by rw [silent]))
    · obtain ⟨other, rival, record, rivalHere, has, rfl⟩ := opened
      rcases set_cases rivalHere with ⟨_, new⟩ | ⟨_, old⟩
      · cases new
        simp only [numbered, Option.some.injEq] at has
        subst has
        exact Or.inr ⟨rfl, by simp only [numbered]⟩
      · exact Or.inl ⟨other, rival, record, old, has, rfl⟩
  | commit t session here ready =>
    refine Or.inl (open_set ?_ opened)
    rintro _ record ⟨⟩
  | rollback t session here =>
    refine Or.inl (open_set ?_ opened)
    rintro _ record ⟨⟩

/-- Ids are never taken back. -/
theorem step_trxId (step : Primary.Step allowed before after) :
    before.trxId ≤ after.trxId := by
  cases step with
  | handleTrxLog t session here idle =>
    simp only [Transaction.handleTrxLog]
    split <;> simp
  | _ => exact Nat.le_refl _

/-! ## Transactions in the order of their ids -/

/-- Commits and callbacks come in the order of the ids, and the client is there
when something is enqueued. -/
def InOrder (cluster : Cluster V) : Label → Cluster V → Prop
  | .database, next => ∀ id, Stored next.primary id → ¬ Stored cluster.primary id →
      ∀ other, Open next.primary other → id < other
  | .callback id, _ => (∀ other ∈ cluster.awaiting, id ≤ other) ∧
      (cluster.agent.state = .streaming → cluster.agent.client.isDone = false)
  | .visit, _ => cluster.agent.client.isDone = false ∧ cluster.agent.client.expired = false
  | _, _ => True

/-- A step that keeps the order. -/
def OrderedStep (allowed : Category → Key → Prop) (cluster next : Cluster V) : Prop :=
  ∃ label, Step allowed cluster label next ∧ InOrder cluster label next

/-- What the log, the numbering and the callbacks have to do with each other. The
ids in `early` were in the log when the primary was started. -/
structure LogInv (early : Nat → Prop) (cluster : Cluster V) : Prop where
  counter : ∀ id, Stored cluster.primary id ∨ Open cluster.primary id →
    1 ≤ id ∧ id ≤ cluster.primary.trxId
  ordered : ∀ id other, Stored cluster.primary id → Open cluster.primary other → id < other
  known : ∀ id, early id → Stored cluster.primary id
  called : ∀ id, Stored cluster.primary id →
    early id ∨ id ∈ cluster.awaiting ∨ id ≤ cluster.lastTrxid

/-- What the agent has enqueued. -/
structure AgentInv (early stored : Nat → Prop) (agent : Agent) : Prop where
  mark : agent.lastEnqueuedTrxid = 0 ∨ stored agent.lastEnqueuedTrxid
  covered : ∀ id, stored id → id ≤ agent.lastEnqueuedTrxid → id ∈ agent.client.enqueued
  streamed : agent.state = .streaming → ∀ id, early id → id ∈ agent.client.enqueued
  ascending : ∀ rest, agent.scan = some rest → rest.Pairwise (· < ·)
  found : ∀ rest, agent.scan = some rest → ∀ id ∈ rest, stored id
  ahead : ∀ rest, agent.scan = some rest → ∀ id, stored id →
    id ∈ agent.client.enqueued ∨ id ∈ rest ∨ ∀ visited ∈ rest, visited < id
  early : ∀ rest, agent.scan = some rest → ∀ id, early id →
    id ∈ agent.client.enqueued ∨ id ∈ rest

/-- What holds in every state reached by ordered steps. -/
structure Inv (early : Nat → Prop) (cluster : Cluster V) : Prop where
  log : LogInv early cluster
  agent : AgentInv early (Stored cluster.primary) cluster.agent

section
variable {early : Nat → Prop} {cluster : Cluster V}

/-- A transaction that commits in order is above everything the agent knows. -/
theorem inv_database (inv : Inv early cluster) {next : Primary V}
    (step : Primary.Step allowed cluster.primary next)
    (order : ∀ id, Stored next id → ¬ Stored cluster.primary id →
      ∀ other, Open next other → id < other) :
    Inv early { cluster with
      primary := next
      awaiting := cluster.awaiting ++ newlyStored cluster.primary next } := by
  have stays := fun id => (step_stored step id).1
  have origin := fun id => (step_stored step id).2
  have opened := step_open step
  have grown := step_trxId step
  have above : ∀ id, Stored next id → ¬ Stored cluster.primary id →
      ∀ old, Stored cluster.primary old → old < id := by
    intro id here new old stored
    exact inv.log.ordered old id stored ((origin id here).resolve_left new)
  constructor
  · constructor
    · rintro id (here | here)
      · have bound := inv.log.counter id (origin id here)
        exact ⟨bound.1, Nat.le_trans bound.2 grown⟩
      · rcases opened id here with old | ⟨same, last⟩
        · have bound := inv.log.counter id (Or.inr old)
          exact ⟨bound.1, Nat.le_trans bound.2 grown⟩
        · simp only [last]
          omega
    · intro id other here open'
      by_cases old : Stored cluster.primary id
      · rcases opened other open' with before | ⟨same, _⟩
        · exact inv.log.ordered id other old before
        · have bound := (inv.log.counter id (Or.inl old)).2
          omega
      · exact order id here old other open'
    · intro id known
      exact stays id (inv.log.known id known)
    · intro id here
      by_cases old : Stored cluster.primary id
      · rcases inv.log.called id old with known | waiting | called
        · exact Or.inl known
        · exact Or.inr (Or.inl (mem_append_left _ waiting))
        · exact Or.inr (Or.inr called)
      · refine Or.inr (Or.inl (mem_append_right _ ?_))
        rw [newlyStored, mem_filter, Std.ExtTreeMap.mem_keys]
        refine ⟨here, ?_⟩
        rw [Bool.not_eq_true', Bool.eq_false_iff]
        exact fun found => old (Std.ExtTreeMap.contains_iff_mem.mp found)
  · constructor
    · rcases inv.agent.mark with zero | stored
      · exact Or.inl zero
      · exact Or.inr (stays _ stored)
    · intro id here low
      by_cases old : Stored cluster.primary id
      · exact inv.agent.covered id old low
      · have bound := (inv.log.counter id (origin id here)).1
        rcases inv.agent.mark with zero | stored
        · simp only at low
          omega
        · have less := above id here old _ stored
          simp only at low
          omega
    · exact inv.agent.streamed
    · exact inv.agent.ascending
    · intro rest scanning id member
      exact stays id (inv.agent.found rest scanning id member)
    · intro rest scanning id here
      by_cases old : Stored cluster.primary id
      · exact inv.agent.ahead rest scanning id old
      · refine Or.inr (Or.inr ?_)
        intro visited member
        exact above id here old visited (inv.agent.found rest scanning visited member)
    · exact inv.agent.early

/-- A callback in order finds everything below it enqueued. -/
theorem inv_callback (inv : Inv early cluster) {id : Nat} {room : Bool} {next : Cluster V}
    (stored : Stored cluster.primary id) (order : ∀ other ∈ cluster.awaiting, id ≤ other)
    (present : cluster.agent.state = .streaming → cluster.agent.client.isDone = false)
    (called : cluster.onTransaction id room = .ok next) : Inv early next := by
  have log : ∀ lastTrxid, id ≤ lastTrxid → cluster.lastTrxid ≤ lastTrxid → ∀ agent,
      LogInv early { cluster with
        awaiting := cluster.awaiting.erase id, lastTrxid := lastTrxid, agent := agent } := by
    intro lastTrxid reached more agent
    refine ⟨inv.log.counter, inv.log.ordered, inv.log.known, ?_⟩
    intro other here
    rcases inv.log.called other here with known | pending | past
    · exact Or.inl known
    · by_cases same : other = id
      · exact Or.inr (Or.inr (same ▸ reached))
      · exact Or.inr (Or.inl ((mem_erase_of_ne same).mpr pending))
    · exact Or.inr (Or.inr (Nat.le_trans past more))
  simp only [Cluster.onTransaction] at called
  by_cases stale : cluster.lastTrxid ≥ id
  · rw [if_pos stale] at called
    cases called
    exact ⟨log cluster.lastTrxid stale (Nat.le_refl _) cluster.agent, inv.agent⟩
  rw [if_neg stale] at called
  obtain ⟨agent, answered, returned⟩ := (Run.bind_eq_ok _ _ _).mp called
  cases returned
  refine ⟨log id (Nat.le_refl _) (by omega) agent, ?_⟩
  simp only [Agent.onTransaction] at answered
  by_cases streaming : cluster.agent.state = .streaming
  · rw [if_neg (by simpa using streaming)] at answered
    by_cases level : cluster.lastTrxid = cluster.agent.lastEnqueuedTrxid
    · rw [if_pos level] at answered
      split at answered
      · cases answered
      simp only [Client.enqueue, present streaming, Bool.false_eq_true, ↓reduceIte,
        Run.ok.injEq] at answered
      subst answered
      exact {
        mark := Or.inr stored
        covered := by
          intro other here low
          simp only at low
          rw [mem_append, mem_singleton]
          rcases inv.log.called other here with known | pending | past
          · exact Or.inl (inv.agent.streamed streaming other known)
          · exact Or.inr (Nat.le_antisymm low (order other pending))
          · exact Or.inl (inv.agent.covered other here (by omega))
        streamed := by
          intro _ other known
          exact mem_append_left _ (inv.agent.streamed streaming other known)
        ascending := inv.agent.ascending
        found := inv.agent.found
        ahead := by
          intro rest scanning other here
          rcases inv.agent.ahead rest scanning other here with sent | later
          · exact Or.inl (mem_append_left _ sent)
          · exact Or.inr later
        early := by
          intro rest scanning other known
          rcases inv.agent.early rest scanning other known with sent | later
          · exact Or.inl (mem_append_left _ sent)
          · exact Or.inr later }
    · rw [if_neg level] at answered
      cases answered
      exact { inv.agent with streamed := by simp [Agent.setState, streaming] }
  · rw [if_pos (by simpa using streaming)] at answered
    cases answered
    exact inv.agent

/-- The ids a new iterator has to visit. -/
theorem mem_scan (trxlog : Std.ExtTreeMap Nat (TrxRecord V)) (mark id : Nat) :
    id ∈ (OrderedMap.above trxlog mark).map Prod.fst ↔ id ∈ trxlog ∧ mark < id := by
  rw [mem_map]
  constructor
  · rintro ⟨entry, member, rfl⟩
    obtain ⟨found, more⟩ := (OrderedMap.mem_above _ _ entry).mp member
    refine ⟨?_, Nat.compare_eq_lt.mp more⟩
    rw [Std.ExtTreeMap.mem_iff_isSome_getElem?, found]
    rfl
  · rintro ⟨stored, more⟩
    rw [Std.ExtTreeMap.mem_iff_isSome_getElem?, Option.isSome_iff_exists] at stored
    obtain ⟨record, found⟩ := stored
    exact ⟨(id, record), (OrderedMap.mem_above _ _ (id, record)).mpr
      ⟨found, Nat.compare_eq_lt.mpr more⟩, rfl⟩

theorem scan_sorted (trxlog : Std.ExtTreeMap Nat (TrxRecord V)) (mark : Nat) :
    ((OrderedMap.above trxlog mark).map Prod.fst).Pairwise (· < ·) := by
  rw [pairwise_map]
  have sorted := (OrderedMap.before_sorted trxlog).filter
    fun entry => compare mark entry.1 == .lt
  exact sorted.imp fun before => Nat.compare_eq_lt.mp before

/-- The iterator of a new scan finds everything that is not covered. -/
theorem inv_startScan (inv : Inv early cluster) :
    Inv early { cluster with agent := cluster.agent.startScan cluster.primary.db.trxlog } := by
  have listed := mem_scan cluster.primary.db.trxlog cluster.agent.lastEnqueuedTrxid
  have covers : ∀ id, Stored cluster.primary id → id ∈ cluster.agent.client.enqueued ∨
      id ∈ (OrderedMap.above cluster.primary.db.trxlog
        cluster.agent.lastEnqueuedTrxid).map Prod.fst := by
    intro id stored
    by_cases low : id ≤ cluster.agent.lastEnqueuedTrxid
    · exact Or.inl (inv.agent.covered id stored low)
    · exact Or.inr ((listed id).mpr ⟨stored, by omega⟩)
  refine ⟨⟨inv.log.counter, inv.log.ordered, inv.log.known, inv.log.called⟩, ?_⟩
  exact {
    mark := inv.agent.mark
    covered := inv.agent.covered
    streamed := inv.agent.streamed
    ascending := by
      rintro _ ⟨⟩
      exact scan_sorted _ _
    found := by
      rintro _ ⟨⟩ id member
      exact ((listed id).mp member).1
    ahead := by
      rintro _ ⟨⟩ id stored
      exact (covers id stored).imp_right Or.inl
    early := by
      rintro _ ⟨⟩ id known
      exact covers id (inv.log.known id known) }

/-- A turn of the scan moves the watermark over the smallest id that is left. -/
theorem inv_visit (inv : Inv early cluster) {id : Nat} {rest : List Nat} (room : Bool)
    (scanning : cluster.agent.scan = some (id :: rest))
    (open' : cluster.agent.client.isDone = false) (there : cluster.agent.client.expired = false) :
    Inv early { cluster with agent := cluster.agent.visit id rest room } := by
  have sorted := inv.agent.ascending _ scanning
  have stored := inv.agent.found _ scanning id mem_cons_self
  have sent : ∀ other, other ∈ cluster.agent.client.enqueued →
      other ∈ cluster.agent.client.enqueued ++ [id] := fun _ => mem_append_left _
  have now : id ∈ cluster.agent.client.enqueued ++ [id] :=
    mem_append_right _ (mem_singleton.mpr rfl)
  refine ⟨⟨inv.log.counter, inv.log.ordered, inv.log.known, inv.log.called⟩, ?_⟩
  cases room with
  | false =>
    simp only [Agent.visit, there, Bool.false_eq_true, ↓reduceIte, Client.enqueue, open']
    exact {
      mark := inv.agent.mark
      covered := fun other here low => sent other (inv.agent.covered other here low)
      streamed := fun streaming other known => sent other (inv.agent.streamed streaming other known)
      ascending := fun _ impossible => by cases impossible
      found := fun _ impossible => by cases impossible
      ahead := fun _ impossible => by cases impossible
      early := fun _ impossible => by cases impossible }
  | true =>
    simp only [Agent.visit, there, Bool.false_eq_true, ↓reduceIte, Client.enqueue, open']
    exact {
      mark := Or.inr stored
      covered := by
        intro other here low
        simp only at low
        rcases inv.agent.ahead _ scanning other here with before | listed | above
        · exact sent other before
        · rcases mem_cons.mp listed with rfl | later
          · exact now
          · have more := (pairwise_cons.mp sorted).1 other later
            omega
        · have more := above id mem_cons_self
          omega
      streamed := fun streaming other known => sent other (inv.agent.streamed streaming other known)
      ascending := by
        rintro _ ⟨⟩
        exact (pairwise_cons.mp sorted).2
      found := by
        rintro _ ⟨⟩ other member
        exact inv.agent.found _ scanning other (mem_cons_of_mem id member)
      ahead := by
        rintro _ ⟨⟩ other here
        rcases inv.agent.ahead _ scanning other here with before | listed | above
        · exact Or.inl (sent other before)
        · rcases mem_cons.mp listed with rfl | later
          · exact Or.inl now
          · exact Or.inr (Or.inl later)
        · exact Or.inr (Or.inr fun visited member => above visited (mem_cons_of_mem id member))
      early := by
        rintro _ ⟨⟩ other known
        rcases inv.agent.early _ scanning other known with before | listed
        · exact Or.inl (sent other before)
        · rcases mem_cons.mp listed with rfl | later
          · exact Or.inl now
          · exact Or.inr later }

/-- A scan that has visited everything has enqueued what was there at the start. -/
theorem inv_finishScan (inv : Inv early cluster) (scanned : cluster.agent.scan = some []) :
    Inv early { cluster with agent := cluster.agent.finishScan } := by
  refine ⟨⟨inv.log.counter, inv.log.ordered, inv.log.known, inv.log.called⟩, ?_⟩
  exact {
    mark := inv.agent.mark
    covered := inv.agent.covered
    streamed := by
      intro _ id known
      exact (inv.agent.early _ scanned id known).resolve_right not_mem_nil
    ascending := fun _ impossible => by cases impossible
    found := fun _ impossible => by cases impossible
    ahead := fun _ impossible => by cases impossible
    early := fun _ impossible => by cases impossible }

end

/-- Callbacks are only waiting for transactions in the log. -/
def Waiting (cluster : Cluster V) : Prop := ∀ id ∈ cluster.awaiting, Stored cluster.primary id

theorem waiting_step {label : Label} (waiting : Waiting cluster)
    (step : Step allowed cluster label next) : Waiting next := by
  cases step with
  | database after moved =>
    intro id member
    rcases mem_append.mp member with old | new
    · exact (step_stored moved id).1 (waiting id old)
    · rw [newlyStored, mem_filter, Std.ExtTreeMap.mem_keys] at new
      exact new.1
  | callback id room _ pending called =>
    have erased : ∀ other ∈ cluster.awaiting.erase id, Stored cluster.primary other :=
      fun other member => waiting other (mem_of_mem_erase member)
    simp only [Cluster.onTransaction] at called
    split at called
    · cases called
      exact erased
    · obtain ⟨agent, _, returned⟩ := (Run.bind_eq_ok _ _ _).mp called
      cases returned
      exact erased
  | _ => exact waiting

/-- Every ordered step keeps the invariant. -/
theorem inv_step {early : Nat → Prop} (inv : Inv early cluster) (waiting : Waiting cluster)
    (ordered : OrderedStep allowed cluster next) : Inv early next := by
  obtain ⟨label, step, order⟩ := ordered
  cases step with
  | database after moved => exact inv_database inv moved order
  | callback id room _ pending called =>
    exact inv_callback inv (waiting id pending) order.1 order.2 called
  | startScan iterating free => exact inv_startScan inv
  | visit id rest room scanning => exact inv_visit inv room scanning order.1 order.2
  | finishScan scanned => exact inv_finishScan inv scanned
  | clientDone =>
    obtain ⟨log, agent⟩ := inv
    exact ⟨⟨log.counter, log.ordered, log.known, log.called⟩, { agent with }⟩
  | onDone =>
    obtain ⟨log, agent⟩ := inv
    exact ⟨⟨log.counter, log.ordered, log.known, log.called⟩,
      { agent with streamed := fun impossible => by cases impossible }⟩

theorem started_inv (started : Started cluster) :
    Inv (Stored cluster.primary) cluster := by
  have noneOpen : ∀ id, ¬ Open cluster.primary id := by
    rintro id ⟨t, session, record, opened, _⟩
    rw [started.closed t] at opened
    cases opened
  refine ⟨⟨?_, ?_, fun _ known => known, fun _ here => Or.inl here⟩, ?_⟩
  · rintro id (here | here)
    · exact started.numbered id here
    · exact absurd here (noneOpen id)
  · intro id other _ here
    exact absurd here (noneOpen other)
  · rw [started.agent]
    exact {
      mark := Or.inl rfl
      covered := by
        intro id here low
        have bound := (started.numbered id here).1
        simp only at low
        omega
      streamed := fun impossible => by cases impossible
      ascending := fun _ impossible => by cases impossible
      found := fun _ impossible => by cases impossible
      ahead := fun _ impossible => by cases impossible
      early := fun _ impossible => by cases impossible }

theorem inv_run {start last : Cluster V} (started : Started start)
    (run : Relation.ReflTransGen (OrderedStep allowed) start last) :
    Inv (Stored start.primary) last ∧ Waiting last := by
  induction run with
  | refl => exact ⟨started_inv started, by simp [Waiting, started.awaiting]⟩
  | tail _ ordered ih =>
    obtain ⟨label, step, _⟩ := id ordered
    exact ⟨inv_step ih.1 ih.2 ordered, waiting_step ih.2 step⟩

/-- In every run in which commits and callbacks come in the order of the ids and
the client is there, an agent that has caught up has enqueued the whole log. -/
theorem caught_up_agent_has_whole_log (allowed : Category → Key → Prop) (start last : Cluster V)
    (started : Started start) (run : Relation.ReflTransGen (OrderedStep allowed) start last)
    (level : CaughtUp last) (id : Nat) (stored : Stored last.primary id) :
    id ∈ last.agent.client.enqueued := by
  obtain ⟨inv, _⟩ := inv_run started run
  rcases inv.log.called id stored with known | pending | past
  · exact inv.agent.streamed level.streaming id known
  · rw [level.delivered] at pending
    cases pending
  · exact inv.agent.covered id stored (by rw [level.level]; exact past)

/-- As long as nothing is in the log, the database moves on alone. -/
theorem database_steps (cluster : Cluster V) (steps : Primary.Steps allowed before after)
    (empty : ∀ id, ¬ Stored after id) :
    Relation.ReflTransGen (OrderedStep allowed) { cluster with primary := before }
      { cluster with primary := after } := by
  induction steps with
  | refl => exact .refl
  | tail _ step ih =>
    rename_i middle last _
    have nothing : newlyStored middle last = [] := by
      rw [eq_nil_iff_forall_not_mem]
      intro id member
      rw [newlyStored, mem_filter, Std.ExtTreeMap.mem_keys] at member
      exact empty id member.1
    have moved : Step allowed { cluster with primary := middle } .database _ :=
      .database last step
    rw [nothing, append_nil] at moved
    have before := ih fun id here => empty id ((step_stored step id).1 here)
    exact before.tail ⟨_, moved, fun id here => absurd here (empty id)⟩

/-- A primary without transactions, and a follower that has just connected. -/
def idle : Cluster Nat := ⟨fresh, [], 0, {}⟩

theorem idle_started : Started idle where
  closed := fun _ => rfl
  numbered := by simp [Stored, idle, fresh]
  awaiting := rfl
  lastTrxid := rfl
  agent := rfl

/-- The log is empty, so the first scan ends at once. -/
theorem idle_streams : Relation.ReflTransGen (OrderedStep Primary.Named) idle
    { idle with agent := { state := .streaming } } := by
  have scanning : OrderedStep Primary.Named idle { idle with agent := { scan := some [] } } :=
    ⟨_, .startScan rfl rfl, trivial⟩
  exact (Relation.ReflTransGen.single scanning).tail ⟨_, .finishScan rfl, trivial⟩

/-- One transaction, committed and called back while the agent streams. -/
theorem streamed_transaction_enqueued :
    ∃ last, Relation.ReflTransGen (OrderedStep Primary.Named) idle last ∧ CaughtUp last ∧
      Stored last.primary 1 ∧ 1 ∈ last.agent.client.enqueued := by
  have numbered := fresh_wrote.tail
    (.handleTrxLog 0 (wrote [0x61] 7) rfl ⟨rfl, rfl⟩)
  have ready := idle_streams.trans
    (database_steps { idle with agent := { state := .streaming } } numbered
      (by simp [Stored, fresh]))
  have committed := ready.tail ⟨_, .database _ (.commit 0 _ rfl rfl), by
    rintro id _ _ other ⟨t, session, record, opened, _⟩
    rcases set_cases opened with ⟨_, impossible⟩ | ⟨apart, old⟩
    · cases impossible
    · rcases set_cases old with ⟨here, _⟩ | ⟨_, older⟩
      · exact absurd here apart
      · rcases set_cases older with ⟨here, _⟩ | ⟨_, oldest⟩
        · exact absurd here apart
        · cases oldest⟩
  have called := committed.tail ⟨_, .callback 1 true _ (by decide) rfl, by decide, fun _ => rfl⟩
  refine ⟨_, called, ⟨by decide, rfl, rfl⟩, Std.ExtTreeMap.contains_iff_mem.mp (by decide), ?_⟩
  exact caught_up_agent_has_whole_log Primary.Named idle _ idle_started called
    ⟨by decide, rfl, rfl⟩ 1 (Std.ExtTreeMap.contains_iff_mem.mp (by decide))

/-- Any step, in order or not. -/
def AnyStep (allowed : Category → Key → Prop) (cluster next : Cluster V) : Prop :=
  ∃ label, Step allowed cluster label next

theorem anyStep_of_ordered (cluster next : Cluster V)
    (ordered : OrderedStep allowed cluster next) : AnyStep allowed cluster next := by
  obtain ⟨label, step, _⟩ := ordered
  exact ⟨label, step⟩

/-- Two transactions commit in the order of their ids, and their callbacks come in
the opposite order: the agent has caught up without ever having enqueued the first. -/
theorem swapped_callbacks_lose_transaction :
    ∃ last, Started idle ∧ Relation.ReflTransGen (AnyStep Primary.Named) idle last ∧
      CaughtUp last ∧ Stored last.primary 1 ∧ last.agent.client.enqueued = [2] := by
  have numbered := (fresh_bothWrote.tail (.handleTrxLog 0 (wrote [0x61] 7) rfl ⟨rfl, rfl⟩)).tail
    (.handleTrxLog 1 (wrote [0x62] 8) rfl ⟨rfl, rfl⟩)
  have ordered := idle_streams.trans
    (database_steps { idle with agent := { state := .streaming } } numbered
      (by simp [Stored, bothWrote, fresh]))
  have ready := Relation.ReflTransGen.mono anyStep_of_ordered _ _ ordered
  have first := ready.tail ⟨_, .database _ (.commit 0 _ rfl rfl)⟩
  have second := first.tail ⟨_, .database _ (.commit 1 _ rfl rfl)⟩
  have late := second.tail ⟨_, .callback 2 true _ (by decide) rfl⟩
  have lost := late.tail ⟨_, .callback 1 true _ (by decide) rfl⟩
  exact ⟨_, idle_started, lost, ⟨by decide, rfl, rfl⟩,
    Std.ExtTreeMap.contains_iff_mem.mp (by decide), rfl⟩

end Nsblast.PrimaryReplication
