import Nsblast.Slave.Sync

/-!
# The names a transfer reaches

The owner of every received record chooses the name that is changed, and nothing
compares it with the zone of the transfer: only the owners of SOA records are
checked. A transfer keeps to its zone exactly when the master does. The removal
in front of a full transfer is no exception; it could delete another name only if
a stored name had a zero byte in it, which the builder of the entries rejects.
-/

namespace Nsblast.Slave

open ZoneMerger List Run Transaction RealKey Name

variable (recordSorter : Sorter recordLess) (indexSorter : Sorter indexLess)
variable (db : Db Entry) (zone : Name)

/-- The records of the replies, other than the SOA records, belong to the zone. -/
def Inside (read : List (List Record)) : Prop :=
  ∀ rr ∈ read.flatten, rr.type ≠ RrType.soa → Name.Within zone rr.key

/-- Outside of the zone the stores have the same entries. -/
def Outside (before after : Db Entry) : Prop :=
  ∀ name, ¬ Name.Within zone name → storedAt after name = storedAt before name

/-- The stored names have no zero byte. -/
def CleanNames (db : Db Entry) : Prop :=
  ∀ name, (storedAt db name).isSome = true → (0 : UInt8) ∉ name

/-! ## A transfer whose records are inside -/

/-- The changes are at names of the zone, and in the transaction the other names
are as they were. -/
structure Framed (transfer : Transfer) : Prop where
  named : ∀ (key : Name) merge, transfer.merger.changes[key]? = some merge → Name.Within zone key
  kept : ∀ name, ¬ Name.Within zone name → lookup db transfer.trx name = storedAt db name

variable {next transfer : Transfer} {answers : List Record} {events : List Event}
    (find : Name → Option Entry) (trxId : Nat) (trx : Transaction Entry)

theorem named_change {merger next : ZoneMerger} (fqdn : Name) (f : ZoneMerge → Run ZoneMerge)
    (within : Name.Within zone (toLower fqdn))
    (named : ∀ (key : Name) merge, merger.changes[key]? = some merge → Name.Within zone key)
    (changed : merger.change find fqdn f = .ok next) (key : Name) (merge : ZoneMerge)
    (found : next.changes[key]? = some merge) : Name.Within zone key := by
  simp only [ZoneMerger.change, bind_eq_ok] at changed
  obtain ⟨_, _, _, _, same⟩ := changed
  cases same
  rw [Std.ExtTreeMap.getElem?_insert] at found
  split at found
  · rename_i equal
    rw [← Std.LawfulEqCmp.eq_of_compare equal]
    exact within
  · exact named key merge found

theorem named_construct (fetch : Bool) (merger : ZoneMerger) (lower : toLower zone = zone)
    (constructed : construct find zone fetch = .ok merger) (key : Name) (merge : ZoneMerge)
    (found : merger.changes[key]? = some merge) : Name.Within zone key := by
  refine named_change zone find zone .ok ?_ ?_ constructed key
    merge found
  · rw [lower]
    exact Or.inl rfl
  · intro other stored listed
    simp at listed

/-- The removal of the zone reaches no other name. -/
theorem kept_remove (clean : CleanNames db)
    (kept : ∀ name, ¬ Name.Within zone name → lookup db trx name = storedAt db name) (name : Name)
    (outside : ¬ Name.Within zone name) :
    lookup db (trx.remove db (ofName zone) true .entry) name = storedAt db name := by
  rw [lookup, remove, if_pos rfl, get_removeFrom]
  split
  · rename_i removed
    have within := mem_takeWhile_imp removed
    have listed := (List.takeWhile_prefix _).subset removed
    obtain ⟨⟨key, entry⟩, visited, same⟩ := mem_map.mp listed
    have present : lookup db trx name = some entry := by
      rw [lookup, Transaction.get, ← same]
      exact ((OrderedMap.mem_seek _ _ _).mp visited).1
    have noZero := clean name (by rw [← kept name outside, present]; rfl)
    rw [ofName_eq, ofName_eq] at within
    have equal := isWithin_clean (fun zero => noZero (mem_reverse.mp zero)) within
    exact absurd (Or.inl (reverse_inj.mp equal)) outside
  · exact kept name outside

theorem framed_apply (action : Action) (rr : Record) (framed : Framed db zone transfer)
    (within : Name.Within zone (toLower (target zone action rr)))
    (applied : apply db zone transfer action rr = .ok next) : Framed db zone next := by
  simp only [apply, bind_eq_ok] at applied
  obtain ⟨merger, changed, same⟩ := applied
  cases same
  exact ⟨named_change zone _ _ _ within framed.named changed, framed.kept⟩

/-- What is done with a record of the zone stays in the zone. -/
theorem framed_perform (clean : CleanNames db) (lower : toLower zone = zone)
    (transfer next : Transfer) (action : Action) (rr : Record) (framed : Framed db zone transfer)
    (within : action ≠ .pass → action ≠ .setSoa → Name.Within zone rr.key)
    (performed : perform db zone transfer action rr = .ok next) : Framed db zone next := by
  cases action with
  | pass =>
    cases performed
    exact framed
  | setSoa =>
    refine framed_apply db zone .setSoa rr framed ?_ performed
    rw [target, lower]
    exact Or.inl rfl
  | add => exact framed_apply db zone .add rr framed (within (by simp) (by simp)) performed
  | delete =>
    exact framed_apply db zone .delete rr framed (within (by simp) (by simp)) performed
  | restart =>
    simp only [perform, fallBack, bind_eq_ok] at performed
    obtain ⟨restarted, ⟨merger, constructed, same⟩, applied⟩ := performed
    cases same
    refine framed_apply db zone .add rr ⟨?_, ?_⟩ (within (by simp) (by simp)) applied
    · exact named_construct zone _ false merger lower constructed
    · exact kept_remove db zone transfer.trx clean framed.kept

/-- Only a record that is not a SOA chooses a name. -/
theorem judge_chooses {control next : Control} {rr : Record} {action : Action}
    (judged : judge zone control rr = .ok (next, action)) (active : action ≠ .pass)
    (other : action ≠ .setSoa) : rr.type ≠ RrType.soa := by
  cases judge_eq_ok zone judged with
  | plain stage isPlain => exact isPlain
  | final => exact absurd rfl other
  | _ => exact absurd rfl active

/-- Run over the answers of a reply. -/
theorem framed_onAnswers (clean : CleanNames db) (lower : toLower zone = zone)
    (within : ∀ rr ∈ answers, rr.type ≠ RrType.soa → Name.Within zone rr.key)
    (framed : Framed db zone transfer) (ran : onAnswers db zone answers transfer = .ok next) :
    Framed db zone next := by
  induction answers generalizing transfer with
  | nil =>
    cases ran
    exact framed
  | cons rr rest ih =>
    simp only [onAnswers, bind_eq_ok] at ran
    obtain ⟨⟨control, action⟩, judged, performed, did, ran⟩ := ran
    refine ih (fun other member => within other (mem_cons_of_mem _ member)) ?_ ran
    refine framed_perform db zone clean lower { transfer with control } performed action rr
      ⟨framed.named, framed.kept⟩ ?_ did
    intro active other
    exact within rr mem_cons_self (judge_chooses zone judged active other)

/-- Run over the replies. -/
theorem framed_onReplies (clean : CleanNames db) (lower : toLower zone = zone)
    {replies : List (List Record)} (inside : Inside zone replies) (framed : Framed db zone transfer)
    (ran : onReplies recordSorter db zone replies transfer = .ok next) : Framed db zone next := by
  induction replies generalizing transfer with
  | nil =>
    rw [onReplies] at ran
    split at ran
    · cases ran
      exact framed
    · cases ran
  | cons answers rest ih =>
    rw [onReplies] at ran
    split at ran
    · cases ran
      exact framed
    · simp only [bind_eq_ok] at ran
      obtain ⟨handled, answered, merged, mergedTo, ran⟩ := ran
      have answersFramed := framed_onAnswers db zone clean lower
        (fun rr member => inside rr (by
          rw [flatten_cons]
          exact mem_append_left _ member)) framed answered
      refine ih (fun rr member => inside rr (by
        rw [flatten_cons]
        exact mem_append_right _ member)) ?_ ran
      simp only [mergeReply, ZoneMerger.merge, bind_eq_ok] at mergedTo
      obtain ⟨merger, ⟨changes, updated, sameMerger⟩, same⟩ := mergedTo
      cases sameMerger
      cases same
      refine ⟨?_, answersFramed.kept⟩
      intro key merge found
      rcases OrderedMap.update_eq_ok _ updated key with ⟨_, absent⟩ | ⟨old, _, had, _, _⟩
      · cases absent.symm.trans found
      · exact answersFramed.named key old had

/-- What was read is what comes before the unread rest. -/
theorem read_unique {first second : List (List Record)} {unread : List Incoming}
    (same : first.map Incoming.reply ++ unread = second.map Incoming.reply ++ unread) :
    first = second :=
  map_injective_iff.mpr (fun _ _ equal => Incoming.reply.inj equal)
    (append_cancel_right same)

variable {incoming : List Incoming} {obsolete : Bool} {prepared : Prepared}
    {read : List (List Record)}

/-- A transfer that comes to its commit with records of the zone only. -/
theorem prepare_outside {trx : Transaction Entry} {mySerial : Nat} (clean : CleanNames db)
    (kept : toLower zone = zone →
      ∀ name, ¬ Name.Within zone name → lookup db trx name = storedAt db name)
    (returned : prepare recordSorter indexSorter db zone trx mySerial incoming obsolete =
      .ok prepared) (split : incoming = read.map .reply ++ prepared.unread)
    (inside : Inside zone read) : Outside zone db (storeAfter db trxId false (.ok prepared)) := by
  obtain ⟨merger, transfer, actual, _, constructed, parted, ran, _, complete, _, _, written⟩ :=
    prepare_eq_ok returned
  have sameRead := read_unique (parted.symm.trans split)
  subst sameRead
  have lower : toLower zone = zone := by
    obtain ⟨first, _, _, _, owner, _⟩ := complete.begins
    rw [← owner, Record.key, toLower_toLower]
  have framed := framed_onReplies recordSorter db zone clean lower inside
    ⟨named_construct zone _ _ merger lower constructed, kept lower⟩ ran
  intro name outside
  rw [← framed.kept name outside, storedAt, storeAfter, if_neg (by decide), commit_get]
  refine saveFrom_frame written name ?_
  rintro ⟨key, merge⟩ member rfl
  exact outside (framed.named key merge (Std.ExtTreeMap.mem_toList_iff_getElem?_eq_some.mp member))

/-- A sync whose records are inside the zone keeps what is outside. -/
theorem sync_outside {strategy : Strategy} (clean : CleanNames db)
    (returned : prepareSync recordSorter indexSorter db zone strategy incoming obsolete =
      .ok prepared) (split : incoming = read.map .reply ++ prepared.unread)
    (inside : Inside zone read) : Outside zone db (storeAfter db trxId false (.ok prepared)) := by
  have untouched (name : Name) (_ : ¬ Name.Within zone name) :
      lookup db {} name = storedAt db name := rfl
  rcases prepareSync_eq_ok
    returned with whole | ⟨_, serial, _, _, _, differences⟩
  · exact prepare_outside recordSorter indexSorter db zone trxId
      clean (fun _ => kept_remove db zone {} clean untouched) whole split inside
  · exact prepare_outside recordSorter indexSorter db zone trxId clean
      (fun _ => untouched) differences split inside

/-! ## A full transfer does the same in every store -/

/-- The variables of a full transfer. -/
structure Whole (transfer : Transfer) : Prop where
  control : transfer.control.isIxfr = false
  stage : transfer.control.stage ≠ .haveIxfrDelSoa
  merger : transfer.merger.fetchExisting = false

/-- The same transfer in another transaction. -/
def Transfer.within (transfer : Transfer) (trx : Transaction Entry) : Transfer :=
  { transfer with trx }

theorem judge_whole {control next : Control} {rr : Record} {action : Action}
    (full : control.isIxfr = false) (stage : control.stage ≠ .haveIxfrDelSoa)
    (judged : judge zone control rr = .ok (next, action)) :
    next.isIxfr = false ∧ next.stage ≠ .haveIxfrDelSoa ∧
      (rr.type = RrType.soa ∧ (action = .pass ∨ action = .setSoa) ∨
        rr.type ≠ RrType.soa ∧ action = .add) := by
  cases judge_eq_ok zone judged with
  | first serial _ isSoa => exact ⟨full, by simp, Or.inl ⟨isSoa, Or.inl rfl⟩⟩
  | currentAdditions _ ixfr => cases full.symm.trans ixfr
  | final _ _ isSoa => exact ⟨full, by simp, Or.inl ⟨isSoa, Or.inr rfl⟩⟩
  | deletions _ _ ixfr => cases full.symm.trans ixfr
  | additions _ _ ixfr => cases full.symm.trans ixfr
  | plain going isPlain =>
    cases at_ : control.stage with
    | needFirstSoa => exact absurd at_ going.1
    | haveFirstSoa =>
      simp only [judgePlain, at_, full]
      exact ⟨trivial, by simp, Or.inr ⟨isPlain, rfl⟩⟩
    | haveIxfrDelSoa => exact absurd at_ stage
    | haveIxfrAddSoa =>
      simp only [judgePlain, at_]
      exact ⟨full, by simp, Or.inr ⟨isPlain, trivial⟩⟩
    | haveFinalSoa => exact absurd at_ going.2

/-- A full transfer does not look at what is stored. -/
theorem change_whole (first second : Name → Option Entry) {merger : ZoneMerger} (fqdn : Name)
    (f : ZoneMerge → Run ZoneMerge) (full : merger.fetchExisting = false) :
    merger.change first fqdn f = merger.change second fqdn f := by
  simp only [ZoneMerger.change, ZoneMerger.get, ZoneMerger.start, full]
  rfl

theorem perform_whole (transfer next : Transfer) (action : Action) (rr : Record)
    (whole : Whole transfer) (going : action ≠ .restart)
    (performed : perform db zone transfer action rr = .ok next) :
    Whole next ∧ ∀ (other : Db Entry) (trx : Transaction Entry),
      perform other zone (transfer.within trx) action rr = .ok (next.within trx) := by
  have applied (done : Action) (ran : apply db zone transfer done rr = .ok next) :
      Whole next ∧ ∀ (other : Db Entry) (trx : Transaction Entry),
        apply other zone (transfer.within trx) done rr = .ok (next.within trx) := by
    simp only [apply, bind_eq_ok] at ran
    obtain ⟨merger, changed, same⟩ := ran
    cases same
    refine ⟨⟨whole.control, whole.stage, ?_⟩, ?_⟩
    · simp only [ZoneMerger.change, bind_eq_ok] at changed
      obtain ⟨_, _, _, _, same⟩ := changed
      cases same
      exact whole.merger
    · intro other trx
      simp only [apply, Transfer.within, bind_eq_ok]
      refine ⟨merger, ?_, rfl⟩
      rw [change_whole _ (lookup db transfer.trx) _ _ whole.merger]
      exact changed
  cases action with
  | pass =>
    cases performed
    exact ⟨whole, fun _ _ => rfl⟩
  | restart => exact absurd rfl going
  | setSoa => exact applied .setSoa performed
  | add => exact applied .add performed
  | delete => exact applied .delete performed

theorem onAnswers_whole (whole : Whole transfer)
    (ran : onAnswers db zone answers transfer = .ok next) :
    Whole next ∧ ∀ (other : Db Entry) (trx : Transaction Entry),
      onAnswers other zone answers (transfer.within trx) = .ok (next.within trx) := by
  induction answers generalizing transfer with
  | nil =>
    cases ran
    exact ⟨whole, fun _ _ => rfl⟩
  | cons rr rest ih =>
    simp only [onAnswers, bind_eq_ok] at ran
    obtain ⟨⟨control, action⟩, judged, performed, did, ran⟩ := ran
    obtain ⟨full, stage, actions⟩ := judge_whole zone whole.control whole.stage judged
    have going : action ≠ .restart := by
      rcases actions with ⟨_, rfl | rfl⟩ | ⟨_, rfl⟩ <;> simp
    obtain ⟨wholeNext, same⟩ := perform_whole db zone { transfer with control } performed action rr
      ⟨full, stage, whole.merger⟩ going did
    obtain ⟨wholeLast, sameRest⟩ := ih wholeNext ran
    refine ⟨wholeLast, fun other trx => ?_⟩
    simp only [onAnswers, bind_eq_ok]
    exact ⟨(control, action), judged, performed.within trx, same other trx, sameRest other trx⟩

theorem receive_whole {incoming unread : List Incoming} (whole : Whole transfer)
    (received : receive recordSorter db zone incoming transfer = .ok (next, unread))
    (other : Db Entry) (trx : Transaction Entry) :
    receive recordSorter other zone incoming (transfer.within trx) =
      .ok (next.within trx, unread) := by
  induction incoming generalizing transfer with
  | nil =>
    rw [receive] at received ⊢
    split at received
    · rename_i final
      cases received
      exact if_pos final
    · cases received
  | cons item rest ih =>
    by_cases final : transfer.control.stage = .haveFinalSoa
    · rw [receive.eq_def] at received ⊢
      dsimp only at received ⊢
      rw [if_pos final] at received
      cases received
      exact if_pos final
    · cases item with
      | failure what =>
        rw [receive, if_neg final] at received
        cases received
      | reply answers =>
        rw [receive, if_neg final] at received
        simp only [mergeReply, bind_eq_ok] at received
        obtain ⟨handled, answered, merged, ⟨merger, mergedTo, same⟩, received⟩ := received
        cases same
        obtain ⟨wholeHandled, sameHandled⟩ :=
          onAnswers_whole db zone whole answered
        have wholeMerged : Whole { handled with merger } := by
          simp only [ZoneMerger.merge, bind_eq_ok] at mergedTo
          obtain ⟨_, _, same⟩ := mergedTo
          cases same
          exact ⟨wholeHandled.control, wholeHandled.stage, wholeHandled.merger⟩
        rw [receive, if_neg (by exact final)]
        simp only [mergeReply, bind_eq_ok]
        exact ⟨handled.within trx, sameHandled other trx, { handled with merger, trx },
          ⟨merger, mergedTo, rfl⟩, ih wholeMerged received⟩

/-- Saving goes through in any transaction. -/
theorem saveFrom_whole {entries : List (Name × ZoneMerge)} {start saved : Transaction Entry}
    (returned : saveFrom indexSorter db entries start = .ok saved) (other : Db Entry)
    (trx : Transaction Entry) : ∃ result, saveFrom indexSorter other entries trx = .ok result := by
  induction entries generalizing start trx with
  | nil => exact ⟨trx, rfl⟩
  | cons entry rest ih =>
    obtain ⟨key, merge⟩ := entry
    simp only [saveFrom, bind_eq_ok] at returned ⊢
    obtain ⟨data, stored, next, written, returned⟩ := returned
    have goes : ∃ result, ZoneMerger.store other trx key data = .ok result := by
      cases data with
      | none => exact ⟨_, rfl⟩
      | some entry => exact ⟨_, rfl⟩
    obtain ⟨result, goes⟩ := goes
    obtain ⟨last, saves⟩ := ih returned result
    exact ⟨last, data, stored, result, goes, saves⟩

/-- A full transfer that comes to its commit in one store does so in every store,
having read the same. -/
theorem prepareAxfr_everywhere
    (returned : prepareAxfr recordSorter indexSorter db zone incoming obsolete = .ok prepared)
    (other : Db Entry) :
    ∃ result, prepareAxfr recordSorter indexSorter other zone incoming obsolete = .ok result ∧
      result.unread = prepared.unread := by
  simp only [prepareAxfr, prepare, bind_eq_ok] at returned ⊢
  obtain ⟨merger, constructed, ⟨transfer, unread⟩, received, saved, written, _, current, same⟩ :=
    returned
  cases same
  have fetch : merger.fetchExisting = false := by
    simp only [construct, ZoneMerger.change, bind_eq_ok] at constructed
    obtain ⟨_, _, _, _, same⟩ := constructed
    cases same
    rfl
  have again := receive_whole recordSorter db zone
    ⟨rfl, by exact Stage.noConfusion, fetch⟩ received other
    (remove other {} (ofName zone) true .entry)
  obtain ⟨result, saves⟩ := saveFrom_whole indexSorter db written other
    (remove other {} (ofName zone) true .entry)
  refine ⟨⟨result, transfer.control, unread⟩, ⟨merger, ?_, (_, unread), again, result, saves, (),
    current, rfl⟩, rfl⟩
  rw [construct, change_whole _ (lookup db _) _ _ rfl]
  exact constructed

/-- The judgements of a full transfer: every record that is not a SOA is added. -/
theorem judgeAll_added (records : List Record) (control last : Control) (events : List Event)
    (full : control.isIxfr = false) (stage : control.stage ≠ .haveIxfrDelSoa)
    (judged : judgeAll zone control records = .ok (last, events)) :
    (∀ event ∈ events, event.action = .pass ∨ event.action = .setSoa ∨ event.action = .add) ∧
      ∀ rr ∈ records, rr.type ≠ RrType.soa → ⟨.add, rr⟩ ∈ events := by
  induction records generalizing control events with
  | nil =>
    cases judged
    exact ⟨nofun, nofun⟩
  | cons first rest ih =>
    obtain ⟨next, action, later, one, others, rfl⟩ := judgeAll_cons_eq_ok judged
    obtain ⟨fullNext, stageNext, actions⟩ := judge_whole zone full stage one
    obtain ⟨allowed, added⟩ := ih next later fullNext stageNext others
    constructor
    · intro event member
      rcases mem_cons.mp member with rfl | member
      · rcases actions with ⟨_, same | same⟩ | ⟨_, same⟩
        · exact Or.inl same
        · exact Or.inr (Or.inl same)
        · exact Or.inr (Or.inr same)
      · exact allowed event member
    · intro rr member isPlain
      rcases mem_cons.mp member with rfl | member
      · rcases actions with ⟨isSoa, _⟩ | ⟨_, rfl⟩
        · exact absurd isSoa isPlain
        · exact mem_cons_self
      · exact mem_cons_of_mem _ (added rr member isPlain)

/-- A name that something was added to has something to save. -/
def Gathered (_ : Name) (events : List Event) (merge : ZoneMerge) : Prop :=
  (∀ event ∈ events, event.action = .setSoa ∨ event.action = .add) →
    merge.needNewBuilder = false ∧ merge.deleted = [] ∧ (events ≠ [] → merge.bodies ≠ [])

theorem gathered_event {key : Name} {event : Event} {merge next : ZoneMerge}
    (gathered : Gathered key events merge)
    (acted : act false event.action event.rr merge = .ok next) :
    Gathered key (events ++ [event]) next := by
  intro added
  obtain ⟨need, deleted, _⟩ :=
    gathered fun other member => added other (mem_append_left _ member)
  have same : next = merge.addAdded event.rr := by
    rcases added event (by simp) with soa | add
    · simp only [act, soa] at acted
      exact (ok.inj acted).symm
    · simp only [act, add] at acted
      exact (ok.inj acted).symm
  subst same
  refine ⟨need, deleted, fun _ => ?_⟩
  simp [ZoneMerge.bodies, ZoneMerge.addAdded]

theorem gathered_merge {key : Name} {merge next : ZoneMerge} (gathered : Gathered key events merge)
    (merged : merge.merge recordSorter = .ok next) :
    Gathered key events next := by
  intro added
  obtain ⟨need, deleted, filled⟩ := gathered added
  obtain ⟨⟨_, noDeleted⟩, needNext, kept, stored, builder, bodies, _, held⟩ :=
    ZoneMerge.merge_eq_ok merge merged
  refine ⟨?_, noDeleted, ?_⟩
  · rw [needNext, need, deleted]
    rfl
  · intro some empty
    rw [ZoneMerge.bodies, builder, append_eq_nil_iff, map_append,
      append_eq_nil_iff, map_eq_nil_iff, bodies, map_eq_nil_iff] at empty
    obtain ⟨⟨noBuilder, noKept⟩, _⟩ := empty
    apply filled some
    rw [ZoneMerge.bodies, noBuilder, map_nil, nil_append, map_eq_nil_iff, eq_nil_iff_forall_not_mem]
    intro rr member
    rcases held rr member with inKept | ⟨other, inBuilder, _⟩
    · rw [noKept] at inKept
      cases inKept
    · rw [noBuilder] at inBuilder
      cases inBuilder

theorem gathered_preserved :
    Preserved recordSorter db trx false Gathered where
  fresh := by
    intro key merge started _
    cases started
    exact ⟨rfl, rfl, fun some => absurd rfl some⟩
  event := by
    intro key events event merge next gathered _ acted
    exact gathered_event gathered acted
  merge := by
    intro key events merge next gathered merged
    exact gathered_merge recordSorter gathered merged

/-- After a full transfer every owner of a record has an entry. -/
theorem prepareAxfr_stored
    (returned : prepareAxfr recordSorter indexSorter db zone incoming obsolete = .ok prepared)
    (split : incoming = read.map .reply ++ prepared.unread) {rr : Record}
    (member : rr ∈ read.flatten) (isPlain : rr.type ≠ RrType.soa) :
    (storedAt (storeAfter db trxId false (.ok prepared)) rr.key).isSome = true := by
  obtain ⟨merger, transfer, actual, events, constructed, parted, ran, judged, _, _, _, written⟩ :=
    prepare_eq_ok returned
  have sameRead := read_unique (parted.symm.trans split)
  subst sameRead
  obtain ⟨allowed, added⟩ := judgeAll_added zone actual.flatten { isIxfr := false }
    prepared.control events rfl (by simp) judged
  have commits : handleIxfrPayloads recordSorter indexSorter db zone trxId
      (remove db {} (ofName zone) true .entry) 0 actual =
        .ok (storeAfter db trxId false (.ok prepared)) := by
    simp only [handleIxfrPayloads, bind_eq_ok]
    exact ⟨merger, constructed, transfer, ran, prepared.trx, written, rfl⟩
  have concerned : ⟨.add, rr⟩ ∈ eventsAt zone rr.key events := by
    rw [eventsAt, mem_filter, concerns_add]
    exact ⟨added rr member isPlain, beq_self_eq_true _⟩
  have going : ∀ event ∈ events, event.action ≠ .restart := by
    intro event listed
    rcases allowed event listed with same | same | same <;> simp [same]
  rcases handleIxfrPayloads_eq_ok trxId 0 _ _ events
    (gathered_preserved recordSorter db _) judged going commits rr.key with
    ⟨none, _⟩ | ⟨merge, gathered, ⟨noAdded, _⟩, _, saved⟩
  · rw [none] at concerned
    cases concerned
  · obtain ⟨need, _, filled⟩ := gathered (by
      intro event listed
      obtain ⟨inEvents, active⟩ := mem_filter.mp listed
      rcases allowed event inEvents with same | other
      · simp [concerns, same] at active
      · exact other)
    have some := filled (ne_nil_of_mem concerned)
    rw [ZoneMerge.bodies, noAdded, map_nil, append_nil] at some
    rcases ZoneMerge.save_eq_ok merge saved with
      ⟨needed, _⟩ | ⟨_, ⟨empty, _⟩ | ⟨entry, stored, _⟩⟩
    · cases need.symm.trans needed
    · rw [empty] at some
      exact absurd rfl some
    · rw [storedAt, stored]
      rfl

/-- A full transfer that comes to its commit keeps, in every store, what is outside
of the zone exactly when its records are inside. An answer with differences does so
when its records are inside. -/
theorem outside_kept_iff_records_inside (trxId : Nat) (incoming : List Incoming)
    (obsolete : Bool) (read : List (List Record)) :
    (∀ db prepared, prepareSync recordSorter indexSorter db zone .axfr incoming obsolete =
        .ok prepared → incoming = read.map .reply ++ prepared.unread →
      ((∀ store, CleanNames store → ∀ result,
          prepareSync recordSorter indexSorter store zone .axfr incoming obsolete = .ok result →
          Outside zone store (storeAfter store trxId false (.ok result))) ↔
        Inside zone read)) ∧
    (∀ db prepared, CleanNames db →
      prepareSync recordSorter indexSorter db zone .ixfr incoming obsolete = .ok prepared →
      incoming = read.map .reply ++ prepared.unread → Inside zone read →
      Outside zone db (storeAfter db trxId false (.ok prepared))) := by
  constructor
  · intro db prepared returned split
    constructor
    · intro keeps rr member isPlain
      by_contra outside
      obtain ⟨result, again, sameUnread⟩ :=
        prepareAxfr_everywhere recordSorter indexSorter db zone returned emptyDb
      rw [← sameUnread] at split
      have stored :=
        prepareAxfr_stored recordSorter indexSorter emptyDb zone trxId again split member isPlain
      have clean : CleanNames emptyDb := by
        intro name some
        simp [storedAt, emptyDb] at some
      rw [keeps emptyDb clean result again rr.key outside] at stored
      simp [storedAt, emptyDb] at stored
    · intro inside store clean result returns
      obtain ⟨other, again, sameUnread⟩ :=
        prepareAxfr_everywhere recordSorter indexSorter db zone returned store
      rw [← sameUnread, ok.inj (again.symm.trans returns)] at split
      exact sync_outside recordSorter indexSorter store zone trxId clean returns split inside
  · intro db prepared clean returned split inside
    exact sync_outside recordSorter indexSorter db zone trxId clean returned split inside

/-- An address of the name `b`, which is not in the zone `a`. -/
def addressOutside (octet : UInt8) : Record where
  owner := [0x62]
  type := RrType.a
  clas := classIn
  ttl := 300
  rdata := [octet, octet, octet, octet]

/-- A slave that has one entry, at the name `b`. -/
def slaveWithOther : Db Entry where
  families := fun category =>
    if category = .entry then
      (∅ : ColumnFamily Entry).insert (ofName [0x62])
        ⟨none, 0, [StorageBuilder.newRr [0x62] false RrType.a 300 (addressOutside 1).rdata]⟩
    else ∅
  trxlog := ∅

theorem cleanNames_slaveWithOther : CleanNames slaveWithOther := by
  intro name stored
  have same : ofName [0x62] = ofName name := by simpa [storedAt, slaveWithOther] using stored
  rw [← ofName_injective same]
  decide

/-- The records are of names of the zone, and the entry of the name `b` stays. -/
theorem zone_alone_keeps_others :
    ∃ prepared, prepareSync insertionRecords insertionIndex slaveWithOther [0x61] .axfr
        [.reply [soaOfA 1, addressOfB 1], .reply [soaOfA 1]] false = .ok prepared ∧
      Outside [0x61] slaveWithOther (storeAfter slaveWithOther 0 false (.ok prepared)) := by
  have ran : (prepareSync insertionRecords insertionIndex slaveWithOther [0x61] .axfr
      [.reply [soaOfA 1, addressOfB 1], .reply [soaOfA 1]] false >>= fun prepared =>
        .ok prepared.unread.isEmpty) = .ok true := by decide +kernel
  rw [bind_eq_ok] at ran
  obtain ⟨prepared, returned, nothing⟩ := ran
  rw [ok.injEq, List.isEmpty_iff] at nothing
  refine ⟨prepared, returned, ((outside_kept_iff_records_inside insertionRecords insertionIndex [0x61] 0
    [.reply [soaOfA 1, addressOfB 1], .reply [soaOfA 1]] false
    [[soaOfA 1, addressOfB 1], [soaOfA 1]]).1 slaveWithOther prepared returned ?_).mpr ?_
    slaveWithOther cleanNames_slaveWithOther prepared returned⟩
  · rw [nothing]
    rfl
  · simp only [Inside]
    decide +kernel

/-- A transfer of the zone `a` replaces the entry of the name `b`. -/
theorem other_zone_overwritten :
    ∃ prepared, prepareSync insertionRecords insertionIndex slaveWithOther [0x61] .axfr
        [.reply [soaOfA 1, addressOutside 2, soaOfA 1]] false = .ok prepared ∧
      ¬ Outside [0x61] slaveWithOther (storeAfter slaveWithOther 0 false (.ok prepared)) := by
  have ran : (prepareSync insertionRecords insertionIndex slaveWithOther [0x61] .axfr
      [.reply [soaOfA 1, addressOutside 2, soaOfA 1]] false >>= fun prepared =>
        .ok (decide (storedAt (storeAfter slaveWithOther 0 false (.ok prepared)) [0x62] =
          storedAt slaveWithOther [0x62]))) = .ok false := by decide +kernel
  rw [bind_eq_ok] at ran
  obtain ⟨prepared, returned, differs⟩ := ran
  rw [ok.injEq, decide_eq_false_iff_not] at differs
  exact ⟨prepared, returned, fun keeps => differs (keeps [0x62] (by decide))⟩

end Nsblast.Slave
