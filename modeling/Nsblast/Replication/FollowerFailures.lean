import Nsblast.Store.LogReplay

/-!
# A follower whose database fails

The follower applies each update in a transaction of its own and then takes the id
of the update as the last it has got, which it acknowledges and resumes after.
Exceptions are caught at two levels. One from a single part is logged and the
next part is tried; a deletion that fails is not even noticed, as the status of
`Delete` is not read. One from anything else leaves the update unapplied, and the
next update is read from the stream.

Any operation may fail. A failed operation changes nothing, and nothing of a
transaction that does not commit is kept. The empty update that `ping` may pass
to the callback is no part of the stream and left out.
-/

namespace Nsblast.FollowerReplication

open List Run

variable {V : Type}

/-- `RealKey{Binary{key}}`. Only a debug build looks at the class of the key. -/
def binaryKey (debug : Bool) : Key → Run Unit
  | [] => .thrown ":RealKey::Binary::string - key cannot be totally empty"
  | first :: _ => throwIf (debug && 10 ≤ first.toNat) "Unknown RealKey::Class value"

/-- The operations that fail while an update is applied: the start of the
transaction, the `Put` or `Delete` of a part, the `Put` of the log entry, with the
text of its status, and the commit. -/
structure Failures where
  dbTransaction : Bool := false
  part : Nat → Bool := fun _ => false
  trxlog : Option String := none
  commit : Bool := false

/-- `SyncUpdate`. -/
structure SyncUpdate (V : Type) where
  isInSync : Bool
  trx : TrxRecord V

/-- An update from the stream, and what fails while it is applied. -/
structure Delivery (V : Type) where
  update : SyncUpdate V
  failures : Failures := {}

/-- The loop over the parts. The key is made outside of the `try`. -/
def addParts (debug : Bool) (db : Db V) (fails : Nat → Bool) :
    Nat → List (Part V) → Transaction V → Run (Transaction V)
  | _, [], trx => .ok trx
  | ix, part :: rest, trx => do
      binaryKey debug part.key
      addParts debug db fails (ix + 1) rest
        (if fails ix then trx else Follower.addPart db trx part)

/-- The write of the log entry. -/
def writeTrxlog : Option String → Run Unit
  | some status => .thrown ("Rocksdb write failed: " ++ status)
  | none => .ok ()

/-- `Agent::onTrx`. -/
def onTrx (debug : Bool) (db : Db V) (delivery : Delivery V) : Run (Db V) := do
  let record := delivery.update.trx
  throwIf delivery.failures.dbTransaction "Failed to start transaction"
  let trx ← addParts debug db delivery.failures.part 0 record.parts { disableTrxlog := true }
  writeTrxlog delivery.failures.trxlog
  throwIf delivery.failures.commit "Failed to commit transaction"
  .ok ({ trx with record := some record }.commit db)

/-- The parts whose operation is carried out. -/
def performed (fails : Nat → Bool) : Nat → List (Part V) → List (Part V)
  | _, [] => []
  | ix, part :: rest =>
      if fails ix || (Category.toCatecory part.columnFamilyIx).isNone then
        performed fails (ix + 1) rest
      else part :: performed fails (ix + 1) rest

/-- A transaction that was received, with the parts that are applied to the store. -/
structure Received (V : Type) where
  trx : TrxRecord V
  applied : List (Part V)

/-- `FollowerReplication::Agent`, its database, and what it has received. -/
structure Agent (V : Type) where
  db : Db V
  currentTrxid : Nat
  isInSync : Bool := false
  received : List (Received V) := []

/-- `getLastCommittedTransactionId`. -/
def getLastCommittedTransactionId (db : Db V) : Nat := db.trxlog.maxKey?.getD 0

namespace Agent

/-- The start of `Agent::init`. -/
def init (db : Db V) : Agent V where
  db := db
  currentTrxid := getLastCommittedTransactionId db

/-- The callback for an update. -/
def onUpdate (debug : Bool) (agent : Agent V) (delivery : Delivery V) : Agent V :=
  match onTrx debug agent.db delivery with
  | .ok db =>
      { db := db
        currentTrxid := delivery.update.trx.id
        isInSync := delivery.update.isInSync
        received := agent.received ++ [⟨delivery.update.trx,
          performed delivery.failures.part 0 delivery.update.trx.parts⟩] }
  | _ => { agent with received := agent.received ++ [⟨delivery.update.trx, []⟩] }

/-- A stream of updates. -/
def follow (debug : Bool) (agent : Agent V) (stream : List (Delivery V)) : Agent V :=
  stream.foldl (onUpdate debug) agent

/-- All that is acknowledged is applied, and nothing is applied in part. -/
structure Truthful (agent : Agent V) : Prop where
  acknowledged : ∀ received ∈ agent.received, received.trx.id ≤ agent.currentTrxid →
    received.applied = received.trx.parts
  whole : ∀ received ∈ agent.received,
    received.applied = [] ∨ received.applied = received.trx.parts

end Agent

namespace Delivery

/-- The update fails as a whole. -/
def failed (debug : Bool) (delivery : Delivery V) : Bool :=
  delivery.failures.dbTransaction ||
    delivery.update.trx.parts.any (fun part => !(binaryKey debug part.key).isOk) ||
    delivery.failures.trxlog.isSome || delivery.failures.commit

/-- The update fails as a whole and had something to apply. -/
def Lost (debug : Bool) (delivery : Delivery V) : Prop :=
  delivery.failed debug = true ∧ delivery.update.trx.parts ≠ []

/-- What the agent keeps of the update. -/
def outcome (debug : Bool) (delivery : Delivery V) : Received V where
  trx := delivery.update.trx
  applied := if delivery.failed debug then []
    else performed delivery.failures.part 0 delivery.update.trx.parts

end Delivery

/-- The failures that do no harm: no part fails in an update that gets through, no
update gets through after one that was lost, and the agent does not start with an
id at or above that of an update that is lost before any gets through. -/
structure Harmless (debug : Bool) (start : Nat) (stream : List (Delivery V)) : Prop where
  whole : ∀ delivery ∈ stream, delivery.failed debug = false →
    performed delivery.failures.part 0 delivery.update.trx.parts = delivery.update.trx.parts
  last : stream.Pairwise fun earlier later => earlier.Lost debug → later.failed debug = true
  new : ∀ before delivery after, stream = before ++ delivery :: after → delivery.Lost debug →
    (∀ earlier ∈ before, earlier.failed debug = true) → start < delivery.update.trx.id

/-- The transaction holds the parts that were carried out. -/
theorem addParts_eq_ok {debug : Bool} {db : Db V} {fails : Nat → Bool} {ix : Nat}
    {parts : List (Part V)} {trx next : Transaction V}
    (added : addParts debug db fails ix parts trx = .ok next) :
    next = (performed fails ix parts).foldl (Follower.addPart db) trx := by
  induction parts generalizing ix trx with
  | nil =>
    cases added
    rfl
  | cons part rest ih =>
    simp only [addParts, bind_eq_ok] at added
    obtain ⟨_, _, added⟩ := added
    have later := ih added
    cases failing : fails ix with
    | true => simpa [performed, failing] using later
    | false =>
      cases known : Category.toCatecory part.columnFamilyIx with
      | none => simpa [performed, failing, known, Follower.addPart] using later
      | some category => simpa [performed, failing, known] using later

theorem addParts_isOk (debug : Bool) (db : Db V) (fails : Nat → Bool) (ix : Nat)
    (parts : List (Part V)) (trx : Transaction V) :
    (addParts debug db fails ix parts trx).isOk =
      !parts.any fun part => !(binaryKey debug part.key).isOk := by
  induction parts generalizing ix trx with
  | nil => rfl
  | cons part rest ih =>
    rw [addParts, any_cons]
    cases key : binaryKey debug part.key with
    | ok _ =>
      rw [bind_ok, ih]
      simp [isOk]
    | _ => rfl

/-- The update gets through unless one of the operations outside of the parts fails. -/
theorem onTrx_isOk (debug : Bool) (db : Db V) (delivery : Delivery V) :
    (onTrx debug db delivery).isOk = !delivery.failed debug := by
  have loop := addParts_isOk debug db delivery.failures.part 0 delivery.update.trx.parts
    { disableTrxlog := true }
  simp only [onTrx, Delivery.failed]
  cases delivery.failures.dbTransaction with
  | true => rfl
  | false =>
    cases added : addParts debug db delivery.failures.part 0 delivery.update.trx.parts
        { disableTrxlog := true } with
    | ok trx =>
      rw [added] at loop
      have keys : (delivery.update.trx.parts.any
          fun part => !(binaryKey debug part.key).isOk) = false := by
        simpa [isOk] using loop.symm
      rw [keys]
      cases delivery.failures.trxlog with
      | some status => rfl
      | none =>
        cases delivery.failures.commit with
        | true => rfl
        | false => rfl
    | _ =>
      rw [added] at loop
      have keys : (delivery.update.trx.parts.any
          fun part => !(binaryKey debug part.key).isOk) = true := by
        simpa [isOk] using loop.symm
      rw [keys]
      rfl

variable {debug : Bool} {delivery : Delivery V}

/-- An update that gets through leaves the store in which the parts that were
carried out are applied, and the log with all of its parts. -/
theorem onTrx_eq_ok {db next : Db V} (applied : onTrx debug db delivery = .ok next) :
    next = { (performed delivery.failures.part 0 delivery.update.trx.parts).foldl
        (Follower.addPart db) { disableTrxlog := true } with
      record := some delivery.update.trx }.commit db := by
  simp only [onTrx, bind_eq_ok] at applied
  obtain ⟨_, _, trx, added, _, _, _, _, same⟩ := applied
  cases same
  rw [addParts_eq_ok added]

namespace Agent

variable {after before : List (Delivery V)} {db : Db V} (agent : Agent V)

theorem onUpdate_of_failed (failed : delivery.failed debug = true) :
    agent.onUpdate debug delivery =
      { agent with received := agent.received ++ [delivery.outcome debug] } := by
  have notOk := onTrx_isOk debug agent.db delivery
  rw [failed] at notOk
  rw [onUpdate, Delivery.outcome, if_pos failed]
  cases ran : onTrx debug agent.db delivery with
  | ok db =>
    rw [ran] at notOk
    cases notOk
  | _ => rfl

theorem onUpdate_of_through (through : delivery.failed debug = false) :
    ∃ db, onTrx debug agent.db delivery = .ok db ∧
      agent.onUpdate debug delivery =
        ⟨db, delivery.update.trx.id, delivery.update.isInSync,
          agent.received ++ [delivery.outcome debug]⟩ := by
  have isOk := onTrx_isOk debug agent.db delivery
  rw [through] at isOk
  obtain ⟨db, ran⟩ := (isOk_iff _).mp isOk
  refine ⟨db, ran, ?_⟩
  rw [onUpdate, ran, Delivery.outcome, through]
  rfl

theorem onUpdate_received (debug : Bool) (agent : Agent V) (delivery : Delivery V) :
    (agent.onUpdate debug delivery).received = agent.received ++ [delivery.outcome debug] := by
  cases failed : delivery.failed debug with
  | true => rw [onUpdate_of_failed agent failed]
  | false =>
    obtain ⟨_, _, updated⟩ := onUpdate_of_through agent failed
    rw [updated]

theorem follow_append (debug : Bool) (agent : Agent V) (before after : List (Delivery V)) :
    agent.follow debug (before ++ after) = (agent.follow debug before).follow debug after :=
  foldl_append

theorem follow_received (debug : Bool) (agent : Agent V) (stream : List (Delivery V)) :
    (agent.follow debug stream).received =
      agent.received ++ stream.map (Delivery.outcome debug) := by
  induction stream generalizing agent with
  | nil => simp [follow]
  | cons delivery rest ih =>
    have later := ih (agent.onUpdate debug delivery)
    rw [onUpdate_received, append_assoc] at later
    exact later

/-- The id is that of an update that got through, or still the first one. -/
theorem follow_current (debug : Bool) (agent : Agent V) (stream : List (Delivery V)) :
    ((∀ delivery ∈ stream, delivery.failed debug = true) ∧
        (agent.follow debug stream).currentTrxid = agent.currentTrxid) ∨
      ∃ delivery ∈ stream, delivery.failed debug = false ∧
        (agent.follow debug stream).currentTrxid = delivery.update.trx.id := by
  induction stream generalizing agent with
  | nil => exact .inl ⟨nofun, rfl⟩
  | cons delivery rest ih =>
    have step : agent.follow debug (delivery :: rest) =
        (agent.onUpdate debug delivery).follow debug rest := rfl
    rw [step]
    rcases ih (agent.onUpdate debug delivery) with ⟨allFailed, same⟩ | ⟨later, member, through, same⟩
    · cases failed : delivery.failed debug with
      | true =>
        left
        rw [onUpdate_of_failed agent failed] at same ⊢
        exact ⟨forall_mem_cons.mpr ⟨failed, allFailed⟩, same⟩
      | false =>
        right
        obtain ⟨_, _, updated⟩ := onUpdate_of_through agent failed
        rw [updated] at same ⊢
        exact ⟨delivery, mem_cons_self, failed, same⟩
    · exact .inr ⟨later, mem_cons_of_mem delivery member, through, same⟩

/-- Updates that all fail leave the id as it is. -/
theorem follow_current_of_failed {stream : List (Delivery V)}
    (failed : ∀ delivery ∈ stream, delivery.failed debug = true) :
    (agent.follow debug stream).currentTrxid = agent.currentTrxid := by
  rcases follow_current debug agent stream with ⟨_, same⟩ | ⟨delivery, member, through, _⟩
  · exact same
  · rw [failed delivery member] at through
    cases through

/-- An update that gets through at the end gives the id. -/
theorem follow_current_concat (before : List (Delivery V))
    (through : delivery.failed debug = false) :
    (agent.follow debug (before ++ [delivery])).currentTrxid = delivery.update.trx.id := by
  rw [follow_append]
  obtain ⟨_, _, updated⟩ := onUpdate_of_through (agent.follow debug before) through
  exact congrArg currentTrxid updated

/-- With harmless failures an update that was lost has an id above the one that is
acknowledged. -/
theorem current_lt_lost (ascending : (before ++ after).Pairwise fun earlier later =>
      earlier.update.trx.id < later.update.trx.id)
    (harmless : Harmless debug (init db).currentTrxid (before ++ after))
    (member : delivery ∈ before) (lost : delivery.Lost debug) :
    ((init db).follow debug before).currentTrxid < delivery.update.trx.id := by
  obtain ⟨front, rest, rfl⟩ := append_of_mem member
  have restFailed : ∀ later ∈ delivery :: rest, later.failed debug = true := by
    have paired := (pairwise_append.mp (pairwise_append.mp harmless.last).1).2.1
    rw [pairwise_cons] at paired
    exact forall_mem_cons.mpr ⟨lost.1, fun later inRest => paired.1 later inRest lost⟩
  rw [follow_append, follow_current_of_failed _ restFailed]
  rcases follow_current debug (init db) front with ⟨frontFailed, same⟩ | ⟨earlier, inFront, _, same⟩
  · rw [same]
    exact harmless.new front delivery (rest ++ after) (by simp) lost frontFailed
  · rw [same]
    have ordered := (pairwise_append.mp (pairwise_append.mp ascending).1).2.2
    exact ordered earlier inFront delivery mem_cons_self

theorem truthful_of_harmless (ascending : (before ++ after).Pairwise fun earlier later =>
      earlier.update.trx.id < later.update.trx.id)
    (harmless : Harmless debug (init db).currentTrxid (before ++ after)) :
    ((init db).follow debug before).Truthful := by
  have kept (received : Received V)
      (member : received ∈ ((init db).follow debug before).received) :
      ∃ delivery ∈ before, delivery.outcome debug = received := by
    rw [follow_received] at member
    simpa [init] using member
  have through (delivery : Delivery V) (member : delivery ∈ before)
      (failed : delivery.failed debug = false) :
      (delivery.outcome debug).applied = delivery.update.trx.parts := by
    rw [Delivery.outcome, failed]
    exact harmless.whole delivery (mem_append_left after member) failed
  constructor
  · intro received member acknowledged
    obtain ⟨delivery, inBefore, rfl⟩ := kept received member
    cases failed : delivery.failed debug with
    | false => exact through delivery inBefore failed
    | true =>
      by_cases empty : delivery.update.trx.parts = []
      · simp [Delivery.outcome, failed, empty]
      · have above := current_lt_lost ascending harmless inBefore ⟨failed, empty⟩
        exact absurd acknowledged (Nat.not_le_of_lt above)
  · intro received member
    obtain ⟨delivery, inBefore, rfl⟩ := kept received member
    cases failed : delivery.failed debug with
    | false => exact .inr (through delivery inBefore failed)
    | true => exact .inl (by simp [Delivery.outcome, failed])

/-- An acknowledged update was not lost. -/
theorem Truthful.not_lost (truthful : ((init db).follow debug before).Truthful)
    (member : delivery ∈ before)
    (acknowledged : delivery.update.trx.id ≤ ((init db).follow debug before).currentTrxid) :
    ¬ delivery.Lost debug := by
  rintro ⟨failed, some⟩
  have listed : delivery.outcome debug ∈ ((init db).follow debug before).received := by
    rw [follow_received]
    exact mem_append_right _ (mem_map_of_mem member)
  have applied := truthful.acknowledged _ listed acknowledged
  rw [Delivery.outcome, if_pos failed] at applied
  exact some applied.symm

theorem harmless_of_truthful {stream : List (Delivery V)}
    (ascending : stream.Pairwise fun earlier later => earlier.update.trx.id < later.update.trx.id)
    (truthful : ∀ before after, stream = before ++ after →
      ((init db).follow debug before).Truthful) : Harmless debug (init db).currentTrxid stream := by
  constructor
  · intro delivery member through
    obtain ⟨before, after, rfl⟩ := append_of_mem member
    have holds := truthful (before ++ [delivery]) after (by simp)
    have listed : delivery.outcome debug ∈
        ((init db).follow debug (before ++ [delivery])).received := by
      rw [follow_received]
      simp
    have applied := holds.acknowledged _ listed
      (Nat.le_of_eq (follow_current_concat (init db) before through).symm)
    rw [Delivery.outcome, through] at applied
    exact applied
  · rw [pairwise_iff_forall_sublist]
    intro earlier later ordered lost
    -- the later update ends a part of the stream that has the earlier one in it
    obtain ⟨before, after, rfl, inBefore⟩ :
        ∃ before after, stream = before ++ later :: after ∧ earlier ∈ before := by
      obtain ⟨front, back, rfl, first, second⟩ := cons_sublist_iff.mp ordered
      obtain ⟨middle, after, rfl⟩ := append_of_mem (singleton_sublist.mp second)
      exact ⟨front ++ middle, after, by simp, mem_append_left middle first⟩
    by_contra notFailed
    have through : later.failed debug = false := by simpa using notFailed
    have holds := truthful (before ++ [later]) after (by simp)
    have below := (pairwise_append.mp ascending).2.2 earlier inBefore later
      mem_cons_self
    refine holds.not_lost (mem_append_left _ inBefore) ?_ lost
    rw [follow_current_concat (init db) before through]
    exact Nat.le_of_lt below
  · rintro before delivery after rfl lost allFailed
    have holds := truthful (before ++ [delivery]) after (by simp)
    have same : ((init db).follow debug (before ++ [delivery])).currentTrxid =
        (init db).currentTrxid := by
      apply follow_current_of_failed
      simpa [or_imp, forall_and, lost.1] using allFailed
    by_contra notBelow
    refine holds.not_lost (by simp) ?_ lost
    rw [same]
    exact Nat.le_of_not_lt notBelow

/-- The agent is truthful all along a stream with ascending ids exactly when the
failures are harmless. -/
theorem truthful_iff_failures_harmless (debug : Bool) (db : Db V) (stream : List (Delivery V))
    (ascending : stream.Pairwise fun earlier later => earlier.update.trx.id < later.update.trx.id) :
    (∀ before after, stream = before ++ after → ((init db).follow debug before).Truthful) ↔
      Harmless debug (init db).currentTrxid stream := by
  constructor
  · exact harmless_of_truthful ascending
  · rintro harmless before after rfl
    exact truthful_of_harmless ascending harmless

/-- What the agent keeps of a stream says what its store holds: each update that got
through has added the parts that are noted as applied. -/
theorem follow_db (debug : Bool) (agent : Agent V) (stream : List (Delivery V)) :
    (agent.follow debug stream).db =
      (stream.filter fun delivery => !delivery.failed debug).foldl (fun db delivery =>
        { (delivery.outcome debug).applied.foldl (Follower.addPart db)
            { disableTrxlog := true } with
          record := some delivery.update.trx }.commit db) agent.db := by
  induction stream generalizing agent with
  | nil => rfl
  | cons delivery rest ih =>
    have step : agent.follow debug (delivery :: rest) =
        (agent.onUpdate debug delivery).follow debug rest := rfl
    rw [step, ih]
    cases failed : delivery.failed debug with
    | true =>
      rw [onUpdate_of_failed agent failed, filter_cons_of_neg (by simp [failed])]
    | false =>
      obtain ⟨db, ran, updated⟩ := onUpdate_of_through agent failed
      rw [updated, filter_cons_of_pos (by simp [failed]), foldl_cons,
        onTrx_eq_ok ran, Delivery.outcome, failed]
      rfl

/-- An update that writes two entries. -/
def twoEntries (id : Nat) : SyncUpdate Nat where
  isInSync := true
  trx := ⟨id, [⟨[0, 0x61], 2, some 7⟩, ⟨[0, 0x62], 2, some 8⟩]⟩

/-- The first update is applied, the second one does not commit. -/
def oneApplied : List (Delivery Nat) := [⟨twoEntries 1, {}⟩, ⟨twoEntries 2, { commit := true }⟩]

theorem two_entries_applied :
    oneApplied.map (·.failed true) = [false, true] ∧ ∀ before after, oneApplied = before ++ after →
      ((init emptyDb).follow true before).Truthful := by
  refine ⟨rfl, (truthful_iff_failures_harmless true emptyDb oneApplied (by decide)).mpr
    ⟨by decide, by simp [oneApplied, Delivery.failed], ?_⟩⟩
  intro before delivery after split _ _
  have positive : ∀ other ∈ oneApplied, 0 < other.update.trx.id := by decide
  simpa [init, getLastCommittedTransactionId, emptyDb] using positive delivery (by simp [split])

/-- The write of the second entry fails. -/
def writeFailed : Agent Nat :=
  (init emptyDb).follow true [⟨twoEntries 1, { part := fun ix => ix == 1 }⟩]

/-- The first of two updates does not commit. -/
def commitFailed : Agent Nat :=
  (init emptyDb).follow true [⟨twoEntries 1, { commit := true }⟩, ⟨⟨true, ⟨2, []⟩⟩, {}⟩]

/-- An update is acknowledged without the entry that was not written, and one that
did not commit is acknowledged with the next. -/
theorem failed_write_acknowledged :
    (writeFailed.currentTrxid = 1 ∧ writeFailed.db.entries [0, 0x61] = some 7 ∧
        writeFailed.db.entries [0, 0x62] = none ∧ ¬ writeFailed.Truthful) ∧
      commitFailed.currentTrxid = 2 ∧ commitFailed.db.entries [0, 0x61] = none ∧
        ¬ commitFailed.Truthful := by
  refine ⟨⟨rfl, by decide +kernel, by decide +kernel, ?_⟩, rfl, by decide +kernel, ?_⟩
  · intro truthful
    have applied := truthful.acknowledged ⟨(twoEntries 1).trx, [⟨[0, 0x61], 2, some 7⟩]⟩
      (.head _) (Nat.le_refl 1)
    cases applied
  · intro truthful
    have applied := truthful.acknowledged ⟨(twoEntries 1).trx, []⟩ (.head _)
      (show 1 ≤ 2 by decide)
    cases applied

end Agent

end Nsblast.FollowerReplication
