import Nsblast.Replication.Agent

/-!
# When a transaction counts as replicated

A request that waits for replication is released by `waiter_.onChange(m)`, for the
transactions up to `m`. `PrimaryReplication` keeps an agent for each follower, with
the last id that follower has confirmed, and calls `onChange` with the lowest
confirmed id of the agents that stream, if it is higher than before. Agents that
iterate the database are connected as well, but not asked.

`getMinTrxIdForAllAgents` holds the mutex of `PrimaryReplication` while it looks at
one agent after the other. The agents do not need that mutex to change their state or
to confirm an id. `checkAgents` calls `onChange` when the mutex is free again, with
the member as it is then. All of these are steps of their own, in any order: a
follower connects, confirms an id or loses its client, an agent changes its state, a
check takes its next step, and `housekeeping` removes the agents without a client.
-/

namespace Nsblast.PrimaryReplication

open List

/-- What `PrimaryReplication` asks an agent for. -/
structure Follower where
  state : State := .iteratingDb
  lastConfirmedTrx : Nat := 0
  expired : Bool := false
  deriving DecidableEq, Repr

/-- The follower is connected. -/
def Follower.Connected (follower : Follower) : Prop := follower.state ≠ .done

/-- `std::numeric_limits<uint64_t>::max()`. -/
def maxTrxId : Nat := 2 ^ 64 - 1

/-- The loop of `getMinTrxIdForAllAgents`: the agents it has still to visit, the one whose
`isStreaming` has just returned true, and the ids it has read, with their agents. -/
structure Scan (U : Type) where
  rest : List U
  found : Option U := none
  taken : List (U × Nat) := []

/-- `lowest`, when these ids have been read. -/
def lowest {U : Type} (taken : List (U × Nat)) : Nat :=
  taken.foldl (fun lowest agent => min agent.2 lowest) maxTrxId

/-- `PrimaryReplication`, with its agents by the uuid of their client. The mutex is held by a
scan. `calls` is the number of checks that have raised the member and have still to call
`onChange`. The ids from which the member was computed are remembered as `counted`, which the
code does not do. -/
structure Replicator (U : Type) where
  followerAgents : List (U × Follower)
  unique : (followerAgents.map Prod.fst).Nodup
  minTrxIdForAllStreamingAgents : Nat := 0
  scan : Option (Scan U) := none
  calls : Nat := 0
  counted : List (U × Nat) := []

namespace Replicator

variable {U : Type}

/-- No follower has connected yet. -/
def start : Replicator U := { followerAgents := [], unique := nodup_nil }

/-- The agents after something was done to the agent of a client. -/
def changeIn [DecidableEq U] (agents : List (U × Follower)) (uuid : U)
    (f : Follower → Follower) : List (U × Follower) :=
  agents.map fun agent => if agent.1 = uuid then (agent.1, f agent.2) else agent

theorem changeIn_keys [DecidableEq U] (agents : List (U × Follower)) (uuid : U)
    (f : Follower → Follower) : (changeIn agents uuid f).map Prod.fst = agents.map Prod.fst := by
  rw [changeIn, map_map]
  apply map_congr_left
  intro agent _
  rw [Function.comp_apply]
  split <;> rfl

/-- What is done to the agent of a client. -/
def change [DecidableEq U] (replicator : Replicator U) (uuid : U) (f : Follower → Follower) :
    Replicator U :=
  { replicator with
    followerAgents := changeIn replicator.followerAgents uuid f
    unique := by
      rw [changeIn_keys]
      exact replicator.unique }

/-- The agents that a test keeps. -/
def keep (replicator : Replicator U) (test : U × Follower → Bool) : Replicator U :=
  { replicator with
    followerAgents := replicator.followerAgents.filter test
    unique := (filter_sublist.map Prod.fst).nodup replicator.unique }

/-- `addAgent`. -/
def addAgent [DecidableEq U] (replicator : Replicator U) (uuid : U) : Replicator U :=
  { replicator with
    followerAgents := (uuid, {}) :: replicator.followerAgents.filter fun agent => agent.1 ≠ uuid
    unique := by
      rw [map_cons, nodup_cons]
      refine ⟨?_, (filter_sublist.map Prod.fst).nodup replicator.unique⟩
      simp }

/-- The agent of this client streams. -/
def isStreaming [DecidableEq U] (replicator : Replicator U) (uuid : U) : Bool :=
  replicator.followerAgents.any fun agent => agent.1 = uuid && agent.2.state = .streaming

/-- The end of `getMinTrxIdForAllAgents`. -/
def leave (replicator : Replicator U) (taken : List (U × Nat)) : Replicator U :=
  if lowest taken = maxTrxId then { replicator with scan := none }
  else if replicator.minTrxIdForAllStreamingAgents < lowest taken then
    { replicator with
      scan := none
      minTrxIdForAllStreamingAgents := lowest taken
      calls := replicator.calls + 1
      counted := taken }
  else { replicator with scan := none }

/-- What happens in a step. -/
inductive Event (U : Type) where
  | addAgent (uuid : U)
  | onTrxId (uuid : U) (trxId : Nat)
  | setState (uuid : U) (state : State)
  | expire (uuid : U)
  | housekeeping
  | enter
  | look (uuid : U)
  | take (uuid : U)
  | leave
  | onChange (trxId : Nat)

/-- One step. -/
inductive Step [DecidableEq U] (replicator : Replicator U) : Event U → Replicator U → Prop where
  | addAgent (uuid : U) (free : replicator.scan = none) :
      Step replicator (.addAgent uuid) (replicator.addAgent uuid)
  | onTrxId (uuid : U) (trxId : Nat) :
      Step replicator (.onTrxId uuid trxId) (replicator.change uuid fun follower =>
        { follower with lastConfirmedTrx := trxId })
  | setState (uuid : U) (state : State) :
      Step replicator (.setState uuid state) (replicator.change uuid fun follower =>
        { follower with state := if follower.state = .done then .done else state })
  | expire (uuid : U) :
      Step replicator (.expire uuid) (replicator.change uuid fun follower =>
        { follower with expired := true })
  | housekeeping (free : replicator.scan = none) :
      Step replicator .housekeeping (replicator.keep fun agent => !agent.2.expired)
  | enter (free : replicator.scan = none) :
      Step replicator .enter
        { replicator with scan := some { rest := replicator.followerAgents.map Prod.fst } }
  | look (uuid : U) (rest : List U) (taken : List (U × Nat))
      (looking : replicator.scan = some ⟨uuid :: rest, none, taken⟩) :
      Step replicator (.look uuid) { replicator with
        scan := some ⟨rest, if replicator.isStreaming uuid then some uuid else none, taken⟩ }
  | take (uuid : U) (rest : List U) (taken : List (U × Nat)) (follower : Follower)
      (taking : replicator.scan = some ⟨rest, some uuid, taken⟩)
      (listed : (uuid, follower) ∈ replicator.followerAgents) :
      Step replicator (.take uuid) { replicator with
        scan := some ⟨rest, none, taken ++ [(uuid, follower.lastConfirmedTrx)]⟩ }
  | leave (taken : List (U × Nat)) (scanned : replicator.scan = some ⟨[], none, taken⟩) :
      Step replicator .leave (replicator.leave taken)
  | onChange (calling : 0 < replicator.calls) :
      Step replicator (.onChange replicator.minTrxIdForAllStreamingAgents)
        { replicator with calls := replicator.calls - 1 }

/-- Any number of steps. -/
abbrev Steps [DecidableEq U] : Replicator U → Replicator U → Prop :=
  Relation.ReflTransGen fun before after => ∃ event, Step before event after

/-- Every follower that is connected has confirmed the transaction. -/
def AllConfirmed (replicator : Replicator U) (trxId : Nat) : Prop :=
  ∀ agent ∈ replicator.followerAgents, agent.2.Connected → trxId ≤ agent.2.lastConfirmedTrx

/-- Every follower that is connected, be it one that was catching up when it was looked at, one
that has come since, or one that has gone back, has confirmed as much as some agent that was
streaming when it was looked at had confirmed then. -/
def NoneBehind (replicator : Replicator U) : Prop :=
  ∀ agent ∈ replicator.followerAgents, agent.2.Connected →
    ∃ read ∈ replicator.counted, read.2 ≤ agent.2.lastConfirmedTrx

/-- What an orderly follower and an orderly schedule keep to: nobody joins between a check and
its call, nobody confirms less than before, and nobody is catching up when a check looks. -/
def Orderly [DecidableEq U] (replicator : Replicator U) : Event U → Prop
  | .addAgent _ => replicator.calls = 0
  | .onTrxId uuid trxId => ∀ follower, (uuid, follower) ∈ replicator.followerAgents →
      follower.lastConfirmedTrx ≤ trxId
  | .look uuid => ∀ follower, (uuid, follower) ∈ replicator.followerAgents →
      follower.state ≠ .iteratingDb
  | _ => True

/-- Any number of orderly steps. -/
abbrev OrderlySteps [DecidableEq U] : Replicator U → Replicator U → Prop :=
  Relation.ReflTransGen fun before after => ∃ event, Orderly before event ∧ Step before event after

section lowest

variable {taken : List (U × Nat)}

theorem foldl_min_le_iff (taken : List (U × Nat)) (bound number : Nat) :
    taken.foldl (fun lowest agent => min agent.2 lowest) bound ≤ number ↔
      bound ≤ number ∨ ∃ read ∈ taken, read.2 ≤ number := by
  induction taken generalizing bound with
  | nil => simp
  | cons first rest ih =>
    have smaller : min first.2 bound ≤ number ↔ first.2 ≤ number ∨ bound ≤ number := by omega
    rw [foldl_cons, ih, exists_mem_cons_iff, smaller, or_assoc, or_left_comm]

/-- If the minimum is one of the ids, it is not above a number exactly if some id is not. -/
theorem lowest_le_iff (some : lowest taken ≠ maxTrxId) (number : Nat) :
    lowest taken ≤ number ↔ ∃ read ∈ taken, read.2 ≤ number := by
  have split := foldl_min_le_iff taken maxTrxId
  constructor
  · intro low
    rcases (split (lowest taken)).mp (Nat.le_refl _) with high | ⟨read, member, least⟩
    · have bounded : lowest taken ≤ maxTrxId := (split maxTrxId).mpr (Or.inl (Nat.le_refl _))
      exact absurd (Nat.le_antisymm bounded high) some
    · exact ⟨read, member, Nat.le_trans least low⟩
  · intro found
    exact (split number).mpr (Or.inr found)

end lowest

variable {replicator next : Replicator U}

/-- While a call of `onChange` is due, the member is the lowest of the counted ids. -/
def Computed (replicator : Replicator U) : Prop :=
  0 < replicator.calls →
    replicator.minTrxIdForAllStreamingAgents = lowest replicator.counted ∧
      lowest replicator.counted ≠ maxTrxId

/-- The id is one that its agent had confirmed, and has not gone back behind. -/
def Backed (read : List (U × Nat)) (agent : U × Follower) : Prop :=
  ∃ id, (agent.1, id) ∈ read ∧ id ≤ agent.2.lastConfirmedTrx

/-- In an orderly run, each connected agent is still to be looked at or was read, and no member
that is still to be announced has been computed without it. -/
structure Asked (replicator : Replicator U) : Prop where
  reading : ∀ scan, replicator.scan = some scan → ∀ agent ∈ replicator.followerAgents,
    agent.2.Connected →
      agent.1 ∈ scan.rest ∨ scan.found = some agent.1 ∨ Backed scan.taken agent
  called : 0 < replicator.calls → ∀ agent ∈ replicator.followerAgents, agent.2.Connected →
    Backed replicator.counted agent

/-- Each agent of the second list comes from one of the first with its uuid, which was connected
if it is, and it has confirmed no less. -/
def Later (agents others : List (U × Follower)) : Prop :=
  ∀ agent ∈ others, agent.2.Connected → ∃ earlier ∈ agents, earlier.1 = agent.1 ∧
    earlier.2.Connected ∧ earlier.2.lastConfirmedTrx ≤ agent.2.lastConfirmedTrx

/-- A step that neither scans nor calls keeps what was asked. -/
theorem Asked.later (asked : Asked replicator)
    (agents : Later replicator.followerAgents next.followerAgents)
    (scan : next.scan = replicator.scan) (calls : next.calls = replicator.calls)
    (counted : next.counted = replicator.counted) : Asked next := by
  have backed {read : List (U × Nat)} {earlier agent : U × Follower} (same : earlier.1 = agent.1)
      (more : earlier.2.lastConfirmedTrx ≤ agent.2.lastConfirmedTrx)
      (holds : Backed read earlier) : Backed read agent := by
    obtain ⟨id, member, low⟩ := holds
    exact ⟨id, same ▸ member, Nat.le_trans low more⟩
  constructor
  · intro other isScan agent member connected
    obtain ⟨earlier, listed, same, wasConnected, more⟩ := agents agent member connected
    have known := asked.reading other (scan ▸ isScan) earlier listed wasConnected
    rw [same] at known
    exact known.imp_right fun found => found.imp_right (backed same more)
  · intro calling agent member connected
    obtain ⟨earlier, listed, same, wasConnected, more⟩ := agents agent member connected
    rw [counted]
    exact backed same more (asked.called (calls ▸ calling) earlier listed wasConnected)

variable [DecidableEq U] {event : Event U} {uuid : U}

/-- Only the end of a scan raises the member, and it remembers the ids it has read. -/
theorem computed_step (computed : Computed replicator) (step : Step replicator event next) :
    Computed next := by
  cases step with
  | leave taken _ =>
    rw [Replicator.leave]
    split
    · exact computed
    · rename_i some
      split
      · exact fun _ => ⟨rfl, some⟩
      · exact computed
  | onChange calling => exact fun _ => computed calling
  | _ => exact computed

/-- The same for whatever has happened since the start. -/
theorem computed_run (run : Steps start replicator) : Computed replicator := by
  induction run with
  | refl => exact fun calling => absurd calling (Nat.lt_irrefl 0)
  | tail _ step ih =>
    obtain ⟨_, step⟩ := step
    exact computed_step ih step

/-- What is done to an agent that neither comes back nor goes back. -/
theorem later_changeIn (f : Follower → Follower)
    (kept : ∀ follower, (uuid, follower) ∈ replicator.followerAgents → (f follower).Connected →
      follower.Connected ∧ follower.lastConfirmedTrx ≤ (f follower).lastConfirmedTrx) :
    Later replicator.followerAgents (replicator.change uuid f).followerAgents := by
  intro agent member connected
  obtain ⟨earlier, listed, rfl⟩ := mem_map.mp member
  refine ⟨earlier, listed, ?_⟩
  split at connected
  · rename_i here
    obtain ⟨wasConnected, more⟩ := kept earlier.2 (here ▸ listed) connected
    rw [if_pos here]
    exact ⟨rfl, wasConnected, more⟩
  · rename_i other
    rw [if_neg other]
    exact ⟨rfl, connected, Nat.le_refl _⟩

/-- An agent that is looked at in order and does not stream has ended. -/
theorem not_connected_of_look (orderly : Orderly replicator (.look uuid)) {agent : U × Follower}
    (member : agent ∈ replicator.followerAgents) (here : agent.1 = uuid)
    (silent : ¬ replicator.isStreaming uuid = true) : ¬ agent.2.Connected := by
  subst here
  rw [Follower.Connected, not_not]
  cases state : agent.2.state with
  | iteratingDb => exact absurd state (orderly agent.2 member)
  | streaming =>
    refine absurd (any_eq_true.mpr ⟨agent, member, ?_⟩) silent
    simp [state]
  | done => rfl

/-- In an orderly step no connected agent is left out: one that is looked at streams, one that
was read does not go back, and none joins before a call that is due. -/
theorem asked_step (asked : Asked replicator) (orderly : Orderly replicator event)
    (step : Step replicator event next) : Asked next := by
  cases step with
  | addAgent uuid free =>
    refine ⟨fun scan isScan => ?_, fun calling => ?_⟩
    · cases free.symm.trans isScan
    · exact absurd orderly (Nat.ne_of_gt calling)
  | onTrxId uuid trxId =>
    refine asked.later (later_changeIn _ fun follower member connected => ?_) rfl rfl rfl
    exact ⟨connected, orderly follower member⟩
  | setState uuid state =>
    refine asked.later (later_changeIn _ fun follower _ connected => ?_) rfl rfl rfl
    refine ⟨fun ended => connected ?_, Nat.le_refl _⟩
    simp only [ended, if_true]
  | expire uuid =>
    exact asked.later (later_changeIn _ fun _ _ connected => ⟨connected, Nat.le_refl _⟩) rfl rfl rfl
  | housekeeping free =>
    refine asked.later (fun agent member connected => ?_) rfl rfl rfl
    exact ⟨agent, mem_of_mem_filter member, rfl, connected, Nat.le_refl _⟩
  | enter free =>
    refine ⟨?_, asked.called⟩
    rintro _ ⟨⟩ agent member _
    exact Or.inl (mem_map_of_mem member)
  | look uuid rest taken looking =>
    refine ⟨?_, asked.called⟩
    rintro _ ⟨⟩ agent member connected
    rcases asked.reading _ looking agent member connected with ahead | found | backed
    · rcases mem_cons.mp ahead with here | later
      · by_cases streams : replicator.isStreaming uuid = true
        · rw [if_pos streams, here]
          exact Or.inr (Or.inl rfl)
        · exact absurd connected (not_connected_of_look orderly member here streams)
      · exact Or.inl later
    · cases found
    · exact Or.inr (Or.inr backed)
  | take uuid rest taken follower taking listed =>
    refine ⟨?_, asked.called⟩
    rintro _ ⟨⟩ agent member connected
    rcases asked.reading _ taking agent member connected with ahead | found | ⟨id, read, low⟩
    · exact Or.inl ahead
    · have here : agent.1 = uuid := (Option.some.inj found).symm
      have same : agent = (uuid, follower) :=
        inj_on_of_nodup_map replicator.unique member listed here
      refine Or.inr (Or.inr ⟨follower.lastConfirmedTrx, ?_, ?_⟩)
      · rw [here]
        exact mem_append_right _ (mem_singleton_self _)
      · rw [same]
    · exact Or.inr (Or.inr ⟨id, mem_append_left _ read, low⟩)
  | leave taken scanned =>
    have idle : ∀ other : Replicator U, other.scan = none → ∀ scan, other.scan = some scan →
        ∀ agent ∈ other.followerAgents, agent.2.Connected →
          agent.1 ∈ scan.rest ∨ scan.found = some agent.1 ∨ Backed scan.taken agent :=
      fun _ none _ found => by cases none.symm.trans found
    rw [Replicator.leave]
    split
    · exact ⟨idle _ rfl, asked.called⟩
    · split
      · refine ⟨idle _ rfl, fun _ agent member connected => ?_⟩
        rcases asked.reading _ scanned agent member connected with ahead | found | backed
        · cases ahead
        · cases found
        · exact backed
      · exact ⟨idle _ rfl, asked.called⟩
  | onChange calling => exact ⟨asked.reading, fun _ => asked.called calling⟩

/-- The same for every orderly run. -/
theorem asked_run (run : OrderlySteps start replicator) : Asked replicator := by
  induction run with
  | refl =>
    refine ⟨?_, fun calling => absurd calling (Nat.lt_irrefl 0)⟩
    rintro _ ⟨⟩
  | tail _ step ih =>
    obtain ⟨_, orderly, step⟩ := step
    exact asked_step ih orderly step

/-- Whatever the agents were doing since the start, a call of `onChange` is right, every connected
follower having confirmed the transaction, exactly when no connected follower is behind all those
whose ids were counted. In a run in which nobody joins between a check and its call, nobody
confirms less than before and nobody is catching up when a check looks, all calls are right. -/
theorem onChange_confirmed_iff_none_behind (reached next : Replicator U) (trxId : Nat)
    (run : Steps start reached) (step : Step reached (.onChange trxId) next) :
    (AllConfirmed next trxId ↔ NoneBehind next) ∧
      (OrderlySteps start reached → AllConfirmed next trxId) := by
  cases step with
  | onChange calling =>
    obtain ⟨isLowest, some⟩ := computed_run run calling
    have exact : AllConfirmed { reached with calls := reached.calls - 1 }
        reached.minTrxIdForAllStreamingAgents ↔
          NoneBehind { reached with calls := reached.calls - 1 } := by
      rw [isLowest]
      exact forall₃_congr fun agent _ _ => lowest_le_iff some agent.2.lastConfirmedTrx
    refine ⟨exact, fun orderly => exact.mpr fun agent member connected => ?_⟩
    obtain ⟨id, read, low⟩ := (asked_run orderly).called calling agent member connected
    exact ⟨(agent.1, id), read, low⟩

/-- Two followers stream. One has confirmed transaction 3, the other 5, and a check has seen
that. -/
def twoStreaming : Replicator Nat where
  followerAgents := [(2, { state := .streaming, lastConfirmedTrx := 5 }),
    (1, { state := .streaming, lastConfirmedTrx := 3 })]
  unique := by decide
  minTrxIdForAllStreamingAgents := 3
  calls := 1
  counted := [(2, 5), (1, 3)]

/-- One follower streams and has confirmed transaction 5, another is connected and has confirmed
nothing. A check has seen that. -/
def oneBehind : Replicator Nat where
  followerAgents := [(1, { state := .streaming, lastConfirmedTrx := 5 }), (2, {})]
  unique := by decide
  minTrxIdForAllStreamingAgents := 5
  calls := 1
  counted := [(1, 5)]

/-- Both followers of `twoStreaming` have come to it in order. -/
theorem twoStreaming_orderly : OrderlySteps start twoStreaming := by
  have orderly {replicator next : Replicator Nat} (event : Event Nat)
      (run : OrderlySteps start replicator) (keeps : Orderly replicator event)
      (step : Step replicator event next) : OrderlySteps start next :=
    run.tail ⟨event, keeps, step⟩
  have joined := orderly (.addAgent 2) (orderly (.addAgent 1) .refl rfl (.addAgent 1 rfl)) rfl
    (.addAgent 2 rfl)
  have streaming := orderly (.setState 2 .streaming) (orderly (.setState 1 .streaming) joined
    trivial (.setState 1 .streaming)) trivial (.setState 2 .streaming)
  have confirmed := orderly (.onTrxId 2 5) (orderly (.onTrxId 1 3) streaming
    (by simp [Orderly, change, changeIn, addAgent, start]) (.onTrxId 1 3))
    (by simp [Orderly, change, changeIn, addAgent, start]) (.onTrxId 2 5)
  have second := orderly (.take 2) (orderly (.look 2) (orderly .enter confirmed trivial
    (.enter rfl)) (by simp [Orderly, change, changeIn, addAgent, start]) (.look 2 [1] [] rfl))
    trivial (.take 2 [1] [] { state := .streaming, lastConfirmedTrx := 5 } rfl (.head _))
  have first := orderly (.take 1) (orderly (.look 1) second
    (by simp [Orderly, change, changeIn, addAgent, start]) (.look 1 [] [(2, 5)] rfl))
    trivial (.take 1 [] [(2, 5)] { state := .streaming, lastConfirmedTrx := 3 } rfl
      (.tail _ (.head _)))
  exact orderly .leave first trivial (.leave [(2, 5), (1, 3)] rfl)

theorem Steps.of_orderly {U : Type} [DecidableEq U] {replicator next : Replicator U}
    (run : OrderlySteps replicator next) : Steps replicator next :=
  Relation.ReflTransGen.mono (fun _ _ step => step.imp fun _ holds => holds.2) _ _ run

theorem two_streaming_confirmed :
    Steps start twoStreaming ∧
      Step twoStreaming (.onChange 3) { twoStreaming with calls := 0 } ∧
      AllConfirmed { twoStreaming with calls := 0 } 3 := by
  have run := Steps.of_orderly twoStreaming_orderly
  have step : Step twoStreaming (.onChange 3) { twoStreaming with calls := 0 } :=
    .onChange Nat.one_pos
  exact ⟨run, step,
    (onChange_confirmed_iff_none_behind twoStreaming _ 3 run step).2 twoStreaming_orderly⟩

/-- Two followers connect, one of them streams and confirms transaction 5, and `checkAgents`
reports it as replicated. The other has confirmed nothing. -/
theorem replicated_without_follower :
    Steps start oneBehind ∧ Step oneBehind (.onChange 5) { oneBehind with calls := 0 } ∧
      ¬ AllConfirmed { oneBehind with calls := 0 } 5 := by
  refine ⟨?_, .onChange Nat.one_pos, ?_⟩
  · have joined : Steps (start : Replicator Nat) _ :=
      (Relation.ReflTransGen.refl.tail ⟨_, .addAgent 2 rfl⟩).tail ⟨_, .addAgent 1 rfl⟩
    have confirmed := (joined.tail ⟨_, .setState 1 .streaming⟩).tail ⟨_, .onTrxId 1 5⟩
    have read := ((confirmed.tail ⟨_, .enter rfl⟩).tail ⟨_, .look 1 [2] [] rfl⟩).tail
      ⟨_, .take 1 [2] [] { state := .streaming, lastConfirmedTrx := 5 } rfl (.head _)⟩
    exact (read.tail ⟨_, .look 2 [] [(1, 5)] rfl⟩).tail ⟨_, .leave [(1, 5)] rfl⟩
  · intro confirmed
    have behind : 5 ≤ 0 := confirmed (2, {}) (.tail _ (.head _)) (by simp [Follower.Connected])
    omega

end Replicator

end Nsblast.PrimaryReplication
