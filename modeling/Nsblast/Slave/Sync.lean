import Nsblast.Slave.AxfrMirror

/-!
# A transfer over a connection that may fail

`Slave::doAxfr` and `Slave::doIxfr` run `handleIxfrPayloads` in a transaction of
their own. Every reply has to arrive: a read may fail, a message may not parse,
and `checkIfDone` throws in a slave that has become obsolete. The last of these
checks, and the commit itself, come when the changes are already saved in the
transaction. Whatever is thrown leaves the transaction to its destructor, which
rolls it back.

A transfer that commits was complete: what it has read begins and ends with the
SOA of the zone, under one serial, and no other zone's SOA is in between.
-/

namespace Nsblast.Slave

open List Run

/-- What the connection brings next: the answers of a reply, or the exception of
`getReply` or of `checkIfDone`. -/
inductive Incoming where
  | reply (answers : List Record)
  | failure (what : String)
  deriving DecidableEq, Repr

/-- A transfer that has come to its commit: the transaction with everything saved
in it, the variables of the loop at its end, and what has not been read. -/
structure Prepared where
  trx : Transaction Entry
  control : Control
  unread : List Incoming

/-- `zone_.master().strategy`. -/
inductive Strategy where
  | axfr
  | ixfr
  deriving DecidableEq, Repr

variable (recordSorter : Sorter recordLess) (indexSorter : Sorter indexLess)
variable (db : Db Entry) (zone : Name)

/-- The loop of `handleIxfrPayloads`, with what it leaves unread. A connection
without further replies was closed by the master. -/
def receive : List Incoming → Transfer → Run (Transfer × List Incoming)
  | incoming, transfer =>
      if transfer.control.stage = .haveFinalSoa then .ok (transfer, incoming)
      else match incoming with
        | [] => .thrown "Slave::getReply: Failed to read reply-len"
        | .failure what :: _ => .thrown what
        | .reply answers :: rest => do
            let handled ← onAnswers db zone answers transfer
            let merged ← mergeReply recordSorter handled
            receive rest merged

/-- `Slave::handleIxfrPayloads` over such a connection, up to the commit.
`obsolete` is what the last `checkIfDone` finds. -/
def prepare (trx : Transaction Entry) (mySerial : Nat) (incoming : List Incoming)
    (obsolete : Bool) : Run Prepared := do
  let isIxfr := mySerial != 0
  let merger ← ZoneMerger.construct (lookup db trx) zone isIxfr
  let (transfer, unread) ← receive recordSorter db zone incoming
    { control := { isIxfr }, merger, trx }
  let saved ← transfer.merger.save indexSorter db transfer.trx
  throwIf obsolete "Slave::sync - Aborting IXFR/AXFR. My instance is obsolete!"
  .ok ⟨saved, transfer.control, unread⟩

/-- `Slave::doAxfr`, behind its question. -/
def prepareAxfr (incoming : List Incoming) (obsolete : Bool) : Run Prepared :=
  prepare recordSorter indexSorter db zone
    (Transaction.remove db {} (RealKey.ofName zone) true .entry) 0 incoming obsolete

/-- `Slave::doIxfr`. Without a serial of its own the slave asks for the whole zone. -/
def prepareIxfr (incoming : List Incoming) (obsolete : Bool) : Run Prepared :=
  match storedAt db zone with
  | none => prepareAxfr recordSorter indexSorter db zone incoming obsolete
  | some entry =>
      if entry.hasType RrType.soa then do
        let serial ← entry.serial
        if serial = 0 then prepareAxfr recordSorter indexSorter db zone incoming obsolete
        else prepare recordSorter indexSorter db zone {} serial incoming obsolete
      else prepareAxfr recordSorter indexSorter db zone incoming obsolete

/-- The last part of `Slave::sync`, up to the commit. -/
def prepareSync (strategy : Strategy) (incoming : List Incoming) (obsolete : Bool) : Run Prepared :=
  match strategy with
  | .axfr => prepareAxfr recordSorter indexSorter db zone incoming obsolete
  | .ixfr => prepareIxfr recordSorter indexSorter db zone incoming obsolete

/-- What the slave has when the sync is over. A commit that fails throws, and
`~Transaction` rolls back what was not committed. -/
def storeAfter (trxId : Nat) (commitFails : Bool) (outcome : Run Prepared) : Db Entry :=
  match outcome with
  | .ok prepared =>
      if commitFails then db
      else Transaction.commit db (Transaction.handleTrxLog trxId prepared.trx).2
  | _ => db

/-! ## What a record can do to the loop -/

/-- All that `judge` can answer. -/
inductive Judgement (control : Control) (rr : Record) : Control → Action → Prop where
  | first (serial : Nat) (stage : control.stage = .needFirstSoa) (isSoa : rr.type = RrType.soa)
      (owner : rr.key = zone) (read : soaSerial rr.toBody = .ok serial) :
      Judgement control rr { control with stage := .haveFirstSoa, currentSerial := serial } .pass
  | currentAdditions (stage : control.stage = .haveIxfrDelSoa) (isIxfr : control.isIxfr = true)
      (isSoa : rr.type = RrType.soa) (owner : rr.key = zone)
      (read : soaSerial rr.toBody = .ok control.currentSerial) :
      Judgement control rr
        { control with stage := .haveIxfrAddSoa, prevSerial := control.currentSerial } .pass
  | final (stage : control.stage ≠ .needFirstSoa ∧ control.stage ≠ .haveFinalSoa)
      (ends : control.isIxfr = true → control.stage ≠ .haveIxfrDelSoa)
      (isSoa : rr.type = RrType.soa) (owner : rr.key = zone)
      (read : soaSerial rr.toBody = .ok control.currentSerial) :
      Judgement control rr
        { control with stage := .haveFinalSoa, prevSerial := control.currentSerial } .setSoa
  | deletions (serial : Nat)
      (stage : control.stage = .haveFirstSoa ∨ control.stage = .haveIxfrAddSoa)
      (isIxfr : control.isIxfr = true) (isSoa : rr.type = RrType.soa) (owner : rr.key = zone)
      (read : soaSerial rr.toBody = .ok serial) (older : serial < control.currentSerial) :
      Judgement control rr { control with stage := .haveIxfrDelSoa, prevSerial := serial } .pass
  | additions (serial : Nat) (stage : control.stage = .haveIxfrDelSoa)
      (isIxfr : control.isIxfr = true) (isSoa : rr.type = RrType.soa) (owner : rr.key = zone)
      (read : soaSerial rr.toBody = .ok serial) (older : serial < control.currentSerial)
      (rises : control.prevSerial < serial) :
      Judgement control rr { control with stage := .haveIxfrAddSoa, prevSerial := serial } .pass
  | plain (stage : control.stage ≠ .needFirstSoa ∧ control.stage ≠ .haveFinalSoa)
      (isPlain : rr.type ≠ RrType.soa) :
      Judgement control rr (judgePlain control).1 (judgePlain control).2

theorem throwIf_eq_ok {condition : Prop} [Decidable condition] {what : String} {done : Unit}
    (passed : throwIf (decide condition) what = .ok done) : ¬ condition := by
  intro holds
  rw [throwIf_of holds] at passed
  cases passed

variable {control next : Control} {rr : Record} {action : Action} {records : List Record}
    {incoming : List Incoming} {obsolete : Bool} {prepared : Prepared}

/-- What a record that is not refused leads to. -/
theorem judge_eq_ok (judged : judge zone control rr = .ok (next, action)) :
    Judgement zone control rr next action := by
  rw [judge] at judged
  split at judged
  · cases judged
  · rename_i notFinal
    split at judged
    · rename_i start
      simp only [judgeFirst, bind_eq_ok] at judged
      obtain ⟨_, isSoa, serial, read, _, owner, same⟩ := judged
      cases same
      exact .first serial start (not_not.mp (throwIf_eq_ok isSoa))
        (not_not.mp (throwIf_eq_ok owner)).symm read
    · rename_i notFirst
      split at judged
      · rename_i isSoa
        simp only [judgeSoa, bind_eq_ok] at judged
        obtain ⟨_, passed, serial, read, judged⟩ := judged
        have owner : rr.key = zone := (not_not.mp (throwIf_eq_ok passed)).symm
        rw [judgeSerial] at judged
        split at judged
        · rename_i current
          subst current
          split at judged
          · rename_i both
            cases judged
            exact .currentAdditions both.2 both.1 isSoa owner read
          · rename_i other
            cases judged
            exact .final ⟨notFirst, notFinal⟩ (fun ixfr del => other ⟨ixfr, del⟩) isSoa owner read
        · split at judged
          · rename_i older
            simp only [judgeOldSoa, bind_eq_ok] at judged
            obtain ⟨_, incremental, judged⟩ := judged
            have isIxfr : control.isIxfr = true :=
              (Bool.not_eq_false _).mp (throwIf_eq_ok incremental)
            split at judged
            · rename_i stage
              cases judged
              exact .deletions serial (Or.inl stage) isIxfr isSoa owner read older
            · rename_i stage
              cases judged
              exact .deletions serial (Or.inr stage) isIxfr isSoa owner read older
            · rename_i stage
              rw [bind_eq_ok] at judged
              obtain ⟨_, rises, same⟩ := judged
              cases same
              exact .additions serial stage isIxfr isSoa owner read older
                (Nat.lt_of_not_le (throwIf_eq_ok rises))
            · rename_i notFirstSoa notAdd notDel
              cases stage : control.stage with
              | needFirstSoa => exact absurd stage notFirst
              | haveFirstSoa => exact absurd stage notFirstSoa
              | haveIxfrDelSoa => exact absurd stage notDel
              | haveIxfrAddSoa => exact absurd stage notAdd
              | haveFinalSoa => exact absurd stage notFinal
          · cases judged
      · rename_i isPlain
        have judgement : Judgement zone control rr (judgePlain control).1 (judgePlain control).2 :=
          .plain ⟨notFirst, notFinal⟩ isPlain
        rw [Run.ok.inj judged] at judgement
        exact judgement

/-! ## What a committed transfer has read -/

/-- The replies begin and end with the SOA of the zone, under one serial; nothing
follows the last SOA in its reply, and every SOA is the zone's. -/
structure Complete (read : List (List Record)) (serial : Nat) : Prop where
  begins : ∃ first rest, read.flatten = first :: rest ∧ first.type = RrType.soa ∧
    first.key = zone ∧ soaSerial first.toBody = .ok serial
  ends : ∃ earlier answers last, read = earlier ++ [answers ++ [last]] ∧
    2 ≤ read.flatten.length ∧ last.type = RrType.soa ∧ last.key = zone ∧
    soaSerial last.toBody = .ok serial
  owners : ∀ rr ∈ read.flatten, rr.type = RrType.soa → rr.key = zone

/-- What the loop knows of the records it has read. -/
structure Known (control : Control) (records : List Record) : Prop where
  owners : ∀ rr ∈ records, rr.type = RrType.soa → rr.key = zone
  nothing : control.stage = .needFirstSoa → records = []
  begins : control.stage ≠ .needFirstSoa → ∃ first rest, records = first :: rest ∧
    first.type = RrType.soa ∧ soaSerial first.toBody = .ok control.currentSerial
  ends : control.stage = .haveFinalSoa → ∃ front last, records = front ++ [last] ∧ front ≠ [] ∧
    last.type = RrType.soa ∧ soaSerial last.toBody = .ok control.currentSerial

variable {recordSorter indexSorter db zone}

/-- A record behind the first one that neither begins nor ends the transfer. -/
theorem Known.later (rr : Record) (known : Known zone control records)
    (started : control.stage ≠ .needFirstSoa)
    (going : next.stage ≠ .needFirstSoa ∧ next.stage ≠ .haveFinalSoa)
    (serial : next.currentSerial = control.currentSerial)
    (owner : rr.type = RrType.soa → rr.key = zone) : Known zone next (records ++ [rr]) := by
  obtain ⟨first, rest, rfl, isSoa, read⟩ := known.begins started
  refine ⟨?_, fun stage => absurd stage going.1, ?_, fun stage => absurd stage going.2⟩
  · intro other member
    rcases mem_append.mp member with earlier | last
    · exact known.owners other earlier
    · rw [mem_singleton.mp last]
      exact owner
  · intro _
    rw [serial]
    exact ⟨first, rest ++ [rr], rfl, isSoa, read⟩

theorem judgePlain_stage (stage : control.stage ≠ .needFirstSoa ∧ control.stage ≠ .haveFinalSoa) :
    (judgePlain control).1.stage ≠ .needFirstSoa ∧ (judgePlain control).1.stage ≠ .haveFinalSoa ∧
      (judgePlain control).1.currentSerial = control.currentSerial := by
  rw [judgePlain]
  split
  · exact ⟨stage.1, stage.2, rfl⟩
  · exact ⟨stage.1, stage.2, rfl⟩
  · exact ⟨by simp, by simp, rfl⟩
  · exact ⟨stage.1, stage.2, rfl⟩

/-- Step: a record. -/
theorem known_judge (known : Known zone control records)
    (judged : judge zone control rr = .ok (next, action)) : Known zone next (records ++ [rr]) := by
  cases judge_eq_ok zone judged with
  | first serial stage isSoa owner read =>
    rw [known.nothing stage, nil_append]
    refine ⟨?_, nofun, fun _ => ⟨rr, [], rfl, isSoa, read⟩, nofun⟩
    intro other member _
    rw [mem_singleton.mp member]
    exact owner
  | currentAdditions stage isIxfr isSoa owner read =>
    exact known.later rr (by rw [stage]; nofun) ⟨nofun, nofun⟩ rfl fun _ => owner
  | deletions serial stage isIxfr isSoa owner read older =>
    have started : control.stage ≠ .needFirstSoa := by
      rcases stage with stage | stage <;> rw [stage] <;> nofun
    exact known.later rr started ⟨nofun, nofun⟩ rfl fun _ => owner
  | additions serial stage isIxfr isSoa owner read older rises =>
    exact known.later rr (by rw [stage]; nofun) ⟨nofun, nofun⟩ rfl fun _ => owner
  | plain stage isPlain =>
    obtain ⟨started, going, serial⟩ := judgePlain_stage stage
    exact known.later rr stage.1 ⟨started, going⟩ serial fun isSoa => absurd isSoa isPlain
  | final stage ends isSoa owner read =>
    obtain ⟨first, rest, rfl, firstSoa, firstRead⟩ := known.begins stage.1
    refine ⟨?_, nofun, fun _ => ⟨first, rest ++ [rr], rfl, firstSoa, firstRead⟩,
      fun _ => ⟨first :: rest, rr, rfl, cons_ne_nil _ _, isSoa, read⟩⟩
    intro other member
    rcases mem_append.mp member with earlier | last
    · exact known.owners other earlier
    · rw [mem_singleton.mp last]
      exact fun _ => owner

/-- Run over records. -/
theorem known_judgeAll {last : Control} {before : List Record} {events : List Event}
    (known : Known zone control before)
    (judged : judgeAll zone control records = .ok (last, events)) :
    Known zone last (before ++ records) := by
  induction records generalizing control before events with
  | nil =>
    cases judged
    rw [append_nil]
    exact known
  | cons rr rest ih =>
    obtain ⟨next, action, later, one, others, _⟩ := judgeAll_cons_eq_ok judged
    rw [append_cons]
    exact ih (known_judge known one) others

/-- The judgements the loop over the answers has made. -/
theorem onAnswers_judged {answers : List Record} {transfer next : Transfer}
    (ran : onAnswers db zone answers transfer = .ok next) :
    ∃ events, judgeAll zone transfer.control answers = .ok (next.control, events) := by
  have trivially : Preserved insertionRecords db {} false fun _ _ _ => True :=
    ⟨fun _ _ _ => trivial, fun _ _ _ _ _ _ _ _ => trivial, fun _ _ _ _ _ _ => trivial⟩
  obtain ⟨events, judged, _⟩ := covers_onAnswers trivially.byReply [] [] ran
  exact ⟨events, judged⟩

/-- What the loop has read when it ends: replies only, the last of which has the
record that ended it as its last one. -/
theorem receive_judged {unread : List Incoming} {transfer next : Transfer}
    (received : receive recordSorter db zone incoming transfer = .ok (next, unread)) :
    ∃ read events, incoming = read.map .reply ++ unread ∧ next.control.stage = .haveFinalSoa ∧
      onReplies recordSorter db zone read transfer = .ok next ∧
      judgeAll zone transfer.control read.flatten = .ok (next.control, events) ∧
      (transfer.control.stage = .haveFinalSoa → read = []) ∧
      (transfer.control.stage ≠ .haveFinalSoa →
        ∃ earlier answers last, read = earlier ++ [answers ++ [last]]) := by
  induction incoming generalizing transfer with
  | nil =>
    rw [receive] at received
    split at received
    · rename_i final
      cases received
      refine ⟨[], [], rfl, final, ?_, rfl, fun _ => rfl, fun going => absurd final going⟩
      rw [onReplies, if_pos final]
    · cases received
  | cons item rest ih =>
    by_cases final : transfer.control.stage = .haveFinalSoa
    · rw [receive.eq_def] at received
      dsimp only at received
      rw [if_pos final] at received
      cases received
      refine ⟨[], [], rfl, final, ?_, rfl, fun _ => rfl, fun going => absurd final going⟩
      rw [onReplies, if_pos final]
    · cases item with
      | failure what =>
        rw [receive, if_neg final] at received
        cases received
      | reply answers =>
        rw [receive, if_neg final] at received
        simp only [bind_eq_ok] at received
        obtain ⟨handled, answered, merged, mergedTo, received⟩ := received
        obtain ⟨sameControl, _⟩ := mergeReply_same mergedTo
        obtain ⟨early, judgedEarly⟩ := onAnswers_judged answered
        obtain ⟨read, late, rfl, reached, ran, judgedLate, stops, goes⟩ := ih received
        rw [sameControl] at judgedLate stops goes
        refine ⟨answers :: read, early ++ late, rfl, reached, ?_, ?_,
          fun stopped => absurd stopped final, fun _ => ?_⟩
        · rw [onReplies, if_neg final]
          simp only [bind_eq_ok]
          exact ⟨handled, answered, merged, mergedTo, ran⟩
        · rw [flatten_cons, judgeAll_append _ _ judgedEarly, judgedLate, bind_ok]
        · by_cases ended : handled.control.stage = .haveFinalSoa
          · rcases eq_nil_or_concat answers with rfl | ⟨front, last, rfl⟩
            · rw [judgeAll, Run.ok.injEq, Prod.mk.injEq] at judgedEarly
              rw [← judgedEarly.1] at ended
              exact absurd ended final
            · rw [stops ended, concat_eq_append]
              exact ⟨[], front, last, rfl⟩
          · obtain ⟨earlier, front, last, rfl⟩ := goes ended
            exact ⟨answers :: earlier, front, last, rfl⟩

/-- A transfer that comes to its commit has read its replies to the end. -/
theorem prepare_eq_ok {trx : Transaction Entry} {mySerial : Nat}
    (returned : prepare recordSorter indexSorter db zone trx mySerial incoming obsolete =
      .ok prepared) :
    ∃ merger transfer read events,
      ZoneMerger.construct (lookup db trx) zone (mySerial != 0) = .ok merger ∧
      incoming = read.map .reply ++ prepared.unread ∧
      onReplies recordSorter db zone read { control := { isIxfr := mySerial != 0 }, merger, trx } =
        .ok transfer ∧
      judgeAll zone { isIxfr := mySerial != 0 } read.flatten = .ok (prepared.control, events) ∧
      Complete zone read prepared.control.currentSerial ∧
      transfer.control = prepared.control ∧ prepared.control.stage = .haveFinalSoa ∧
      transfer.merger.save indexSorter db transfer.trx = .ok prepared.trx := by
  simp only [prepare, bind_eq_ok] at returned
  obtain ⟨merger, constructed, ⟨transfer, unread⟩, received, saved, written, _, _, same⟩ := returned
  cases same
  obtain ⟨read, events, split, final, ran, judged, _, reads⟩ :=
    receive_judged received
  obtain ⟨earlier, answers, last, ends⟩ := reads (by exact Stage.noConfusion)
  have start : Known zone { isIxfr := mySerial != 0 } [] :=
    ⟨by simp, fun _ => rfl, fun started => absurd rfl started, by simp⟩
  have known := known_judgeAll start judged
  rw [nil_append] at known
  refine ⟨merger, transfer, read, events, constructed, split, ran, judged, ?_, rfl, final, written⟩
  obtain ⟨first, rest, begins, firstSoa, firstRead⟩ := known.begins (by simp [final])
  obtain ⟨front, lastSoa, whole, filled, isSoa, lastRead⟩ := known.ends final
  have same : lastSoa = last := by
    have flat : read.flatten = (earlier.flatten ++ answers) ++ [last] := by
      rw [ends]
      simp
    rw [whole] at flat
    exact singleton_inj.mp (append_inj' flat rfl).2
  subst same
  refine ⟨⟨first, rest, begins, firstSoa, known.owners first ?_ firstSoa, firstRead⟩,
    ⟨earlier, answers, lastSoa, ends, ?_, isSoa, known.owners lastSoa ?_ isSoa, lastRead⟩,
    known.owners⟩
  · rw [begins]
    exact mem_cons_self
  · rw [whole, length_append, length_singleton]
    have := length_pos_of_ne_nil filled
    omega
  · rw [whole]
    exact mem_append_right _ mem_cons_self

/-- Either way of asking ends in `handleIxfrPayloads`, for no serial or for the
local one. -/
theorem prepareSync_eq_ok {strategy : Strategy}
    (returned : prepareSync recordSorter indexSorter db zone strategy incoming obsolete =
      .ok prepared) :
    prepare recordSorter indexSorter db zone
        (Transaction.remove db {} (RealKey.ofName zone) true .entry) 0 incoming obsolete =
        .ok prepared ∨
      ∃ entry serial, storedAt db zone = some entry ∧ entry.serial = .ok serial ∧ serial ≠ 0 ∧
        prepare recordSorter indexSorter db zone {} serial incoming obsolete = .ok prepared := by
  cases strategy with
  | axfr => exact Or.inl returned
  | ixfr =>
    simp only [prepareSync, prepareIxfr] at returned
    cases found : storedAt db zone with
    | none =>
      rw [found] at returned
      exact Or.inl returned
    | some entry =>
      rw [found] at returned
      dsimp only at returned
      split at returned
      · rw [bind_eq_ok] at returned
        obtain ⟨serial, read, returned⟩ := returned
        split at returned
        · exact Or.inl returned
        · rename_i some
          exact Or.inr ⟨entry, serial, rfl, read, some, returned⟩
      · exact Or.inl returned

variable (recordSorter indexSorter db zone) in
/-- A sync that reaches its commit has read a complete transfer; one that does not,
or whose commit fails, leaves the store as it was. -/
theorem sync_commits_only_complete (strategy : Strategy) (trxId : Nat) (incoming : List Incoming)
    (obsolete commitFails : Bool) :
    (∀ prepared, prepareSync recordSorter indexSorter db zone strategy incoming obsolete =
        .ok prepared →
      ∃ read, incoming = read.map .reply ++ prepared.unread ∧
        ∃ serial, Complete zone read serial) ∧
    ((∀ prepared, prepareSync recordSorter indexSorter db zone strategy incoming obsolete ≠
        .ok prepared) ∨ commitFails = true →
      storeAfter db trxId commitFails
        (prepareSync recordSorter indexSorter db zone strategy incoming obsolete) = db) := by
  constructor
  · intro prepared returned
    rcases prepareSync_eq_ok
      returned with whole | ⟨_, serial, _, _, _, differences⟩
    · obtain ⟨_, _, read, _, _, split, _, _, complete, _⟩ :=
        prepare_eq_ok whole
      exact ⟨read, split, _, complete⟩
    · obtain ⟨_, _, read, _, _, split, _, _, complete, _⟩ :=
        prepare_eq_ok differences
      exact ⟨read, split, _, complete⟩
  · rintro (never | fails)
    · cases outcome : prepareSync recordSorter indexSorter db zone strategy incoming obsolete with
      | ok prepared => exact absurd outcome (never prepared)
      | _ => rfl
    · rw [fails]
      cases prepareSync recordSorter indexSorter db zone strategy incoming obsolete <;> rfl

/-- A zone in two replies, and one more that is not read. -/
def threeReplies : List Incoming :=
  [.reply [soaOfA 1, addressOfB 1, addressOfB 2], .reply [addressOfB 3, soaOfA 1],
    .reply [addressOfB 4]]

theorem whole_zone_comes_to_commit :
    ∃ prepared read serial, prepareSync insertionRecords insertionIndex emptyDb [0x61] .axfr
        threeReplies false = .ok prepared ∧
      threeReplies = read.map .reply ++ prepared.unread ∧ Complete [0x61] read serial := by
  obtain ⟨prepared, returned⟩ := (isOk_iff (prepareSync insertionRecords insertionIndex emptyDb
    [0x61] .axfr threeReplies false)).mp (by decide +kernel)
  obtain ⟨read, split, serial, complete⟩ := (sync_commits_only_complete insertionRecords
    insertionIndex emptyDb [0x61] .axfr 0 threeReplies false false).1 prepared returned
  exact ⟨prepared, read, serial, returned, split, complete⟩

end Nsblast.Slave
