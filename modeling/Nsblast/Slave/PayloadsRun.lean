import Nsblast.Slave.Payloads

/-!
# What a whole transfer does to one name

The judgements of a transfer do not depend on how its records are split into
replies. Seen from one name, a transfer is the sequence of the records that
concern this name, with a merge behind each reply. A property of the changes
at a name that survives a record and a merge therefore holds at the end, and what
is committed at the name is what these changes save. A property that does not look
at the replies holds for every split.
-/

namespace Nsblast.Slave

open List ZoneMerger Name Run

/-- A record and what is done with it. -/
structure Event where
  action : Action
  rr : Record

/-- The judgements of the records of a transfer, in order. -/
def judgeAll (zone : Name) : Control → List Record → Run (Control × List Event)
  | control, [] => .ok (control, [])
  | control, rr :: rest => do
      let (next, action) ← judge zone control rr
      let (last, events) ← judgeAll zone next rest
      .ok (last, ⟨action, rr⟩ :: events)

variable {zone : Name} {control last : Control} {rr : Record} {events : List Event}

theorem judgeAll_cons {next : Control} {action : Action} (rest : List Record)
    (judged : judge zone control rr = .ok (next, action)) :
    judgeAll zone control (rr :: rest) = (judgeAll zone next rest >>= fun result =>
      .ok (result.1, ⟨action, rr⟩ :: result.2)) := by
  rw [judgeAll, judged, bind_ok]

theorem judgeAll_cons_eq_ok {rest : List Record}
    (judged : judgeAll zone control (rr :: rest) = .ok (last, events)) :
    ∃ next action later, judge zone control rr = .ok (next, action) ∧
      judgeAll zone next rest = .ok (last, later) ∧ events = ⟨action, rr⟩ :: later := by
  simp only [judgeAll, bind_eq_ok] at judged
  obtain ⟨⟨next, action⟩, one, ⟨reached, later⟩, others, same⟩ := judged
  cases same
  exact ⟨next, action, later, one, others, rfl⟩

/-- Every record is judged. -/
theorem judgeAll_records {records : List Record}
    (judged : judgeAll zone control records = .ok (last, events)) :
    events.map (·.rr) = records := by
  induction records generalizing control events with
  | nil =>
    cases judged
    rfl
  | cons rr rest ih =>
    obtain ⟨next, action, later, _, others, rfl⟩ := judgeAll_cons_eq_ok judged
    rw [map_cons, ih others]

theorem judgeAll_append {middle : Control} (first second : List Record) {early : List Event}
    (before : judgeAll zone control first = .ok (middle, early)) :
    judgeAll zone control (first ++ second) = (judgeAll zone middle second >>= fun result =>
      .ok (result.1, early ++ result.2)) := by
  induction first generalizing control early with
  | nil =>
    cases before
    rw [nil_append]
    cases judgeAll zone middle second <;> rfl
  | cons rr rest ih =>
    rw [judgeAll, bind_eq_ok] at before
    obtain ⟨⟨next, action⟩, judged, before⟩ := before
    rw [bind_eq_ok] at before
    obtain ⟨⟨reached, events⟩, later, same⟩ := before
    cases same
    rw [cons_append, judgeAll_cons _ judged, ih later]
    cases judgeAll zone middle second <;> rfl

/-- Behind the final SOA no record is accepted. -/
theorem judgeAll_final {records : List Record} (final : control.stage = .haveFinalSoa)
    (judged : judgeAll zone control records = .ok (last, events)) : records = [] := by
  cases records with
  | nil => rfl
  | cons rr rest =>
    rw [judgeAll, judge, if_pos final, bind_thrown] at judged
    cases judged

section OneName

variable (recordSorter : Sorter recordLess) (indexSorter : Sorter indexLess)
variable (db : Db Entry) (zone : Name) (trx : Transaction Entry) (fetch : Bool)

/-- The record changes something at a name. -/
def concerns (key : Name) (event : Event) : Bool :=
  event.action != .pass && toLower (target zone event.action event.rr) == key

variable {events : List Event} {merger : ZoneMerger} {fqdn : Name} {merge : ZoneMerge}
    {replies : List (List Record)} {saved start : Transaction Entry}
    {entries : List (Name × ZoneMerge)} (key : Name) (rr : Record)

theorem concerns_add :
    concerns zone key ⟨.add, rr⟩ = (rr.key == key) := rfl

theorem concerns_delete :
    concerns zone key ⟨.delete, rr⟩ = (rr.key == key) := rfl

theorem concerns_setSoa :
    concerns zone key ⟨.setSoa, rr⟩ = (toLower zone == key) := rfl

/-- The records that concern a name. -/
def eventsAt (key : Name) (events : List Event) : List Event := events.filter (concerns zone key)

/-- The property `holds`, of the records that concerned a name in the replies before this one,
of those in this one, and of its changes, is there from the start and survives a record and a
merge. -/
structure PreservedByReply (holds : Name → List (List Event) → List Event → ZoneMerge → Prop) :
    Prop where
  fresh : ∀ key count merge, ZoneMerger.start (lookup db trx) fetch key = .ok merge →
    holds key (replicate count []) [] merge
  event : ∀ key groups events event merge next, holds key groups events merge →
    event.action ≠ .restart → act fetch event.action event.rr merge = .ok next →
    holds key groups (events ++ [event]) next
  merge : ∀ key groups events merge next, holds key groups events merge →
    merge.merge recordSorter = .ok next → holds key (groups ++ [events]) [] next

/-- The same for a property that does not look at the replies. -/
structure Preserved (holds : Name → List Event → ZoneMerge → Prop) : Prop where
  fresh : ∀ key merge, ZoneMerger.start (lookup db trx) fetch key = .ok merge → holds key [] merge
  event : ∀ key events event merge next, holds key events merge → event.action ≠ .restart →
    act fetch event.action event.rr merge = .ok next → holds key (events ++ [event]) next
  merge : ∀ key events merge next, holds key events merge →
    merge.merge recordSorter = .ok next → holds key events next

variable {holds : Name → List (List Event) → List Event → ZoneMerge → Prop}
    {groups : List (List Event)}

/-- The records that concern a name, reply by reply. -/
def groupsAt (key : Name) (groups : List (List Event)) : List (List Event) :=
  groups.map (eventsAt zone key)

/-- Names without changes were not concerned; the others have the property. -/
structure Covers (holds : Name → List (List Event) → List Event → ZoneMerge → Prop)
    (groups : List (List Event)) (events : List Event) (merger : ZoneMerger) : Prop where
  fetchExisting : merger.fetchExisting = fetch
  absent : ∀ key, merger.changes[key]? = none → eventsAt zone key (groups.flatten ++ events) = []
  touched : ∀ (key : Name) merge, merger.changes[key]? = some merge →
    key = toLower zone ∨ eventsAt zone key (groups.flatten ++ events) ≠ []
  present : ∀ key merge, merger.changes[key]? = some merge →
    holds key (groupsAt zone key groups) (eventsAt zone key events) merge

variable {recordSorter indexSorter db zone trx fetch}

/-- Without looking at the replies. -/
theorem Preserved.byReply {holds : Name → List Event → ZoneMerge → Prop}
    (preserved : Preserved recordSorter db trx fetch holds) :
    PreservedByReply recordSorter db trx fetch fun key groups events =>
      holds key (groups.flatten ++ events) where
  fresh key count merge started := by
    rw [flatten_replicate_nil]
    exact preserved.fresh key merge started
  event key groups events event merge next before going acted := by
    rw [← append_assoc]
    exact preserved.event key _ event merge next before going acted
  merge key groups events merge next before merged := by
    rw [flatten_append, flatten_singleton, append_nil]
    exact preserved.merge key _ merge next before merged

theorem flatten_groupsAt :
    (groupsAt zone key groups).flatten = eventsAt zone key groups.flatten := by
  rw [groupsAt, eventsAt, filter_flatten]
  rfl

/-- A name that was not concerned was concerned in no reply. -/
theorem groupsAt_of_nil (nothing : eventsAt zone key groups.flatten = []) :
    groupsAt zone key groups = replicate groups.length [] := by
  rw [← flatten_groupsAt, flatten_eq_nil_iff] at nothing
  exact eq_replicate_iff.mpr ⟨length_map _, nothing⟩

theorem eventsAt_append (first second : List Event) :
    eventsAt zone key (first ++ second) = eventsAt zone key first ++ eventsAt zone key second :=
  filter_append first second

/-- The element handed to a change has the property. -/
theorem covers_get (preserved : PreservedByReply recordSorter db trx fetch holds)
    (covers : Covers zone fetch holds groups events merger)
    (got : merger.get (lookup db trx) fqdn = .ok merge) :
    holds (toLower fqdn) (groupsAt zone (toLower fqdn) groups)
      (eventsAt zone (toLower fqdn) events) merge := by
  rw [ZoneMerger.get] at got
  split at got
  · rename_i found
    cases got
    exact covers.present _ _ found
  · rename_i missing
    rw [covers.fetchExisting] at got
    have nothing := covers.absent _ missing
    rw [eventsAt_append, append_eq_nil_iff] at nothing
    rw [groupsAt_of_nil _ nothing.1, nothing.2]
    exact preserved.fresh _ _ _ got

/-- What `get` hands out is changed, and put back. -/
theorem covers_change (preserved : PreservedByReply recordSorter db trx fetch holds)
    {more : List Event} {next : ZoneMerger} {f : ZoneMerge → Run ZoneMerge}
    (covers : Covers zone fetch holds groups events merger)
    (changed : merger.change (lookup db trx) fqdn f = .ok next)
    (step : ∀ merge result, holds (toLower fqdn) (groupsAt zone (toLower fqdn) groups)
        (eventsAt zone (toLower fqdn) events) merge → f merge = .ok result →
      holds (toLower fqdn) (groupsAt zone (toLower fqdn) groups)
        (eventsAt zone (toLower fqdn) (events ++ more)) result)
    (here : toLower fqdn = toLower zone ∨ eventsAt zone (toLower fqdn) more ≠ [])
    (elsewhere : ∀ key, key ≠ toLower fqdn → eventsAt zone key more = []) :
    Covers zone fetch holds groups (events ++ more) next := by
  simp only [change, bind_eq_ok] at changed
  obtain ⟨merge, got, result, stepped, same⟩ := changed
  cases same
  have reached := step merge result
    (covers_get preserved covers got) stepped
  refine ⟨covers.fetchExisting, ?_, ?_, ?_⟩
  · intro key missing
    rw [Std.ExtTreeMap.getElem?_insert] at missing
    split at missing
    · cases missing
    · rename_i other
      have different : key ≠ toLower fqdn := fun equal => other (by simp [equal])
      rw [← append_assoc, eventsAt_append, covers.absent key missing, elsewhere key different,
        append_nil]
  · intro key found stored
    rw [Std.ExtTreeMap.getElem?_insert] at stored
    rw [← append_assoc, eventsAt_append, ne_eq, append_eq_nil_iff, not_and_or]
    split at stored
    · rename_i equal
      rw [← Std.LawfulEqCmp.eq_of_compare equal]
      exact here.imp_right Or.inr
    · exact (covers.touched key found stored).imp_right Or.inl
  · intro key found stored
    rw [Std.ExtTreeMap.getElem?_insert] at stored
    split at stored
    · rename_i equal
      cases stored
      rw [← Std.LawfulEqCmp.eq_of_compare equal]
      exact reached
    · rename_i other
      have different : key ≠ toLower fqdn := fun equal => other (by simp [equal])
      rw [eventsAt_append, elsewhere key different, append_nil]
      exact covers.present key found stored

/-- The constructor concerns the zone. -/
theorem covers_construct (preserved : PreservedByReply recordSorter db trx fetch holds)
    (constructed : construct (lookup db trx) zone fetch = .ok merger) :
    Covers zone fetch holds [] [] merger := by
  have empty : Covers zone fetch holds [] [] { fetchExisting := fetch } := by
    refine ⟨rfl, fun _ _ => rfl, ?_, ?_⟩ <;>
    · intro key merge found
      simp at found
  refine covers_change preserved empty
    constructed ?_ (Or.inl rfl) fun _ _ => rfl
  intro merge result before same
  cases same
  exact before

variable {transfer next : Transfer}

/-- The loop variables are not changed by what is done with a record. -/
theorem perform_control {action : Action} {rr : Record}
    (performed : perform db zone transfer action rr = .ok next) :
    next.control = transfer.control := by
  have applied (start : Transfer) (done : Action) (ran : apply db zone start done rr = .ok next) :
      next.control = start.control := by
    rw [apply, bind_eq_ok] at ran
    obtain ⟨_, _, same⟩ := ran
    cases same
    rfl
  cases action with
  | pass =>
    cases performed
    rfl
  | restart =>
    rw [perform, bind_eq_ok] at performed
    obtain ⟨restarted, fell, ran⟩ := performed
    rw [fallBack, bind_eq_ok] at fell
    obtain ⟨_, _, same⟩ := fell
    cases same
    have kept := applied _ _ ran
    exact kept
  | setSoa => exact applied transfer _ performed
  | add => exact applied transfer _ performed
  | delete => exact applied transfer _ performed

/-- A record that is passed over concerns no name. -/
theorem eventsAt_pass : eventsAt zone key [⟨.pass, rr⟩] = [] := by
  rfl

/-- Step: a record that does not restart the transfer. -/
theorem covers_perform (preserved : PreservedByReply recordSorter db trx fetch holds)
    (events : List Event) (transfer next : Transfer) (action : Action) (rr : Record)
    (sameTrx : transfer.trx = trx) (covers : Covers zone fetch holds groups events transfer.merger)
    (going : action ≠ .restart) (performed : perform db zone transfer action rr = .ok next) :
    next.control = transfer.control ∧ next.trx = trx ∧
      Covers zone fetch holds groups (events ++ [⟨action, rr⟩]) next.merger := by
  by_cases passed : action = .pass
  · cases passed
    cases performed
    have same (events : List Event) (key : Name) :
        eventsAt zone key (events ++ [⟨.pass, rr⟩]) = eventsAt zone key events := by
      rw [eventsAt_append, eventsAt_pass, append_nil]
    refine ⟨rfl, sameTrx, covers.fetchExisting, ?_, ?_, ?_⟩
    · intro key missing
      rw [← append_assoc, same]
      exact covers.absent key missing
    · intro key merge found
      rw [← append_assoc, same]
      exact covers.touched key merge found
    · intro key merge found
      rw [same]
      exact covers.present key merge found
  · have applied : apply db zone transfer action rr = .ok next := by
      cases action with
      | pass => exact absurd rfl passed
      | restart => exact absurd rfl going
      | setSoa => exact performed
      | add => exact performed
      | delete => exact performed
    rw [apply, bind_eq_ok, sameTrx] at applied
    obtain ⟨merger, changed, same⟩ := applied
    cases same
    rw [covers.fetchExisting] at changed
    have here : eventsAt zone (toLower (target zone action rr)) [⟨action, rr⟩] =
        [⟨action, rr⟩] := by
      simp [eventsAt, concerns, passed]
    refine ⟨rfl, rfl, ?_⟩
    refine covers_change preserved covers
      changed ?_ (Or.inr (by rw [here]; exact cons_ne_nil _ _)) ?_
    · intro merge result before stepped
      rw [eventsAt_append, here]
      exact preserved.event _ _ _ ⟨action, rr⟩ merge result before going stepped
    · intro key different
      simp [eventsAt, concerns, Ne.symm different]

/-- Run over the answers of a reply. -/
theorem covers_onAnswers (preserved : PreservedByReply recordSorter db trx fetch holds)
    (groups : List (List Event)) {answers : List Record} (before : List Event)
    {transfer next : Transfer} (ran : onAnswers db zone answers transfer = .ok next) :
    ∃ events, judgeAll zone transfer.control answers = .ok (next.control, events) ∧
      ((∀ event ∈ events, event.action ≠ .restart) → transfer.trx = trx →
        Covers zone fetch holds groups before transfer.merger →
        next.trx = trx ∧ Covers zone fetch holds groups (before ++ events) next.merger) := by
  induction answers generalizing before transfer with
  | nil =>
    cases ran
    refine ⟨[], rfl, ?_⟩
    intro _ sameTrx covers
    rw [append_nil]
    exact ⟨sameTrx, covers⟩
  | cons rr rest ih =>
    simp only [onAnswers, bind_eq_ok] at ran
    obtain ⟨⟨control, action⟩, judged, performed, did, ran⟩ := ran
    obtain ⟨events, judgedRest, later⟩ := ih (before ++ [⟨action, rr⟩]) ran
    have sameControl := perform_control did
    rw [sameControl] at judgedRest
    refine ⟨⟨action, rr⟩ :: events, ?_, ?_⟩
    · rw [judgeAll_cons rest judged, judgedRest, bind_ok]
    · intro going sameTrx covers
      obtain ⟨_, keptTrx, covered⟩ := covers_perform preserved before
        { transfer with control } performed action rr sameTrx covers
        (going ⟨action, rr⟩ mem_cons_self) did
      have rest := later (fun event member => going event (mem_cons_of_mem _ member)) keptTrx
        covered
      rw [append_assoc, singleton_append] at rest
      exact rest

/-- Nothing waits to be merged at any name. -/
def AllMerged (merger : ZoneMerger) : Prop :=
  ∀ (key : Name) (merge : ZoneMerge), merger.changes[key]? = some merge → merge.Merged

/-- The merge ends the reply at every name. -/
theorem covers_mergeReply (preserved : PreservedByReply recordSorter db trx fetch holds)
    (covers : Covers zone fetch holds groups events transfer.merger)
    (merged : mergeReply recordSorter transfer = .ok next) :
    Covers zone fetch holds (groups ++ [events]) [] next.merger ∧ AllMerged next.merger := by
  rw [mergeReply, bind_eq_ok] at merged
  obtain ⟨merger, updated, same⟩ := merged
  cases same
  rw [ZoneMerger.merge, bind_eq_ok] at updated
  obtain ⟨changes, updated, same⟩ := updated
  cases same
  have outcome := OrderedMap.update_eq_ok _ updated
  have same : (groups ++ [events]).flatten ++ [] = groups.flatten ++ events := by simp
  refine ⟨⟨covers.fetchExisting, ?_, ?_, ?_⟩, ?_⟩
  · intro key missing
    rw [same]
    rcases outcome key with ⟨absent, _⟩ | ⟨_, _, _, _, stored⟩
    · exact covers.absent key absent
    · cases missing.symm.trans stored
  · intro key merge found
    rw [same]
    rcases outcome key with ⟨_, absent⟩ | ⟨old, _, had, _, _⟩
    · cases absent.symm.trans found
    · exact covers.touched key old had
  · intro key merge found
    rcases outcome key with ⟨_, absent⟩ | ⟨old, new, had, mergedTo, stored⟩
    · cases absent.symm.trans found
    · cases stored.symm.trans found
      rw [groupsAt, map_append]
      exact preserved.merge key _ _ old merge (covers.present key old had) mergedTo
  · intro key merge found
    rcases outcome key with ⟨_, absent⟩ | ⟨old, new, _, mergedTo, stored⟩
    · cases absent.symm.trans found
    · cases stored.symm.trans found
      exact (ZoneMerge.merge_eq_ok old mergedTo).1

theorem mergeReply_same (merged : mergeReply recordSorter transfer = .ok next) :
    next.control = transfer.control ∧ next.trx = transfer.trx := by
  rw [mergeReply, bind_eq_ok] at merged
  obtain ⟨_, _, same⟩ := merged
  cases same
  exact ⟨rfl, rfl⟩

/-- Run over the replies, up to the one with the final SOA. -/
theorem covers_onReplies (preserved : PreservedByReply recordSorter db trx fetch holds)
    (before : List (List Event)) {transfer next : Transfer}
    (ran : onReplies recordSorter db zone replies transfer = .ok next) :
    ∃ unread groups, replies = groups.map (fun group => group.map (·.rr)) ++ unread ∧
      judgeAll zone transfer.control (groups.map fun group => group.map (·.rr)).flatten =
        .ok (next.control, groups.flatten) ∧
      next.control.stage = .haveFinalSoa ∧
      ((∀ event ∈ groups.flatten, event.action ≠ .restart) → transfer.trx = trx →
        Covers zone fetch holds before [] transfer.merger →
        (transfer.control.stage = .haveFinalSoa → AllMerged transfer.merger) →
        next.trx = trx ∧ Covers zone fetch holds (before ++ groups) [] next.merger ∧
          AllMerged next.merger) := by
  induction replies generalizing before transfer with
  | nil =>
    rw [onReplies] at ran
    split at ran
    · rename_i final
      cases ran
      refine ⟨[], [], rfl, rfl, final, ?_⟩
      intro _ sameTrx covers merged
      rw [append_nil]
      exact ⟨sameTrx, covers, merged final⟩
    · cases ran
  | cons answers rest ih =>
    rw [onReplies] at ran
    split at ran
    · rename_i final
      cases ran
      refine ⟨answers :: rest, [], rfl, rfl, final, ?_⟩
      intro _ sameTrx covers merged
      rw [append_nil]
      exact ⟨sameTrx, covers, merged final⟩
    · simp only [bind_eq_ok] at ran
      obtain ⟨handled, answered, merged, mergedTo, ran⟩ := ran
      obtain ⟨sameControl, sameTrx⟩ := mergeReply_same mergedTo
      obtain ⟨early, judgedEarly, covered⟩ := covers_onAnswers preserved before [] answered
      obtain ⟨unread, late, rfl, judgedLate, final, later⟩ := ih (before ++ [early]) ran
      rw [sameControl] at judgedLate
      have records := judgeAll_records judgedEarly
      refine ⟨unread, early :: late, ?_, ?_, final, ?_⟩
      · rw [map_cons, records, cons_append]
      · rw [map_cons, records, flatten_cons, judgeAll_append _ _ judgedEarly, judgedLate, bind_ok,
          flatten_cons]
      · intro going startTrx covers _
        obtain ⟨handledTrx, coversHandled⟩ := covered
          (fun event member => going event (mem_append_left _ member)) startTrx covers
        obtain ⟨coversMerged, allMerged⟩ := covers_mergeReply preserved coversHandled mergedTo
        rw [append_cons]
        exact later (fun event member => going event (mem_append_right _ member))
          (sameTrx.trans handledTrx) coversMerged fun _ => allMerged

/-- Storing the data of a name leaves the others. -/
theorem lookup_store {next : Transaction Entry} {stored : Name} {data : Option Entry}
    (written : ZoneMerger.store db start stored data = .ok next) :
    lookup db next key = if stored = key then data else lookup db start key := by
  have named : (Category.entry = Category.entry ∧ RealKey.ofName stored = RealKey.ofName key) ↔
      stored = key := by
    constructor
    · intro both
      exact RealKey.ofName_injective both.2
    · rintro rfl
      exact ⟨rfl, rfl⟩
  rw [← if_congr named rfl rfl]
  cases data with
  | none =>
    cases written
    exact Transaction.get_delete db start .entry .entry _ _ _
  | some entry =>
    cases written
    exact Transaction.get_change db start .entry .entry _ _ _

/-- A name that is not listed is not saved. -/
theorem saveFrom_frame (returned : saveFrom indexSorter db entries start = .ok saved) (key : Name)
    (absent : ∀ entry ∈ entries, entry.1 ≠ key) : lookup db saved key = lookup db start key := by
  induction entries generalizing start with
  | nil =>
    cases returned
    rfl
  | cons entry rest ih =>
    obtain ⟨first, merge⟩ := entry
    simp only [saveFrom, bind_eq_ok] at returned
    obtain ⟨data, _, next, written, returned⟩ := returned
    rw [ih returned fun other member => absent other (mem_cons_of_mem _ member),
      lookup_store key written, if_neg (absent (first, merge) mem_cons_self)]

/-- A listed name holds what its changes save. -/
theorem saveFrom_saved (sorted : entries.Pairwise (OrderedMap.Before compare))
    (returned : saveFrom indexSorter db entries start = .ok saved) {key : Name}
    (listed : (key, merge) ∈ entries) : merge.save indexSorter = .ok (lookup db saved key) := by
  induction entries generalizing start with
  | nil => cases listed
  | cons entry rest ih =>
    simp only [saveFrom, bind_eq_ok] at returned
    obtain ⟨data, stored, next, written, returned⟩ := returned
    rw [pairwise_cons] at sorted
    rcases mem_cons.mp listed with same | listed
    · cases same
      have later : ∀ entry ∈ rest, entry.1 ≠ key := by
        intro other member equal
        have self : compare key key = .eq := Std.ReflCmp.compare_self
        have less := sorted.1 other member
        rw [OrderedMap.Before, equal, self] at less
        cases less
      rw [saveFrom_frame returned key later,
        lookup_store key written, if_pos rfl, stored]
    · exact ih sorted.2 returned listed

/-- What is committed at a name: the entry from before the transfer where nothing
concerned the name, and otherwise what its changes save. -/
theorem handleIxfrPayloads_byReply (trxId mySerial : Nat) (committed : Db Entry) (last : Control)
    (events : List Event) (preserved : PreservedByReply recordSorter db trx (mySerial != 0) holds)
    (judged : judgeAll zone { isIxfr := mySerial != 0 } replies.flatten = .ok (last, events))
    (going : ∀ event ∈ events, event.action ≠ .restart)
    (returned : handleIxfrPayloads recordSorter indexSorter db zone trxId trx mySerial replies =
      .ok committed) :
    ∃ unread groups, replies = groups.map (fun group => group.map (·.rr)) ++ unread ∧
      unread.flatten = [] ∧ groups.flatten = events ∧ ∀ key,
        (eventsAt zone key events = [] ∧
          (committed.families .entry)[RealKey.ofName key]? = lookup db trx key) ∨
        ∃ merge : ZoneMerge, holds key (groupsAt zone key groups) [] merge ∧ merge.Merged ∧
          (key = toLower zone ∨ eventsAt zone key events ≠ []) ∧
          merge.save indexSorter = .ok (committed.families .entry)[RealKey.ofName key]? := by
  simp only [handleIxfrPayloads, bind_eq_ok] at returned
  obtain ⟨merger, constructed, transfer, ran, saved, written, same⟩ := returned
  cases same
  have fresh := covers_construct preserved constructed
  obtain ⟨unread, groups, rfl, judgedRead, final, reached⟩ := covers_onReplies preserved [] ran
  rw [flatten_append, judgeAll_append _ _ judgedRead, bind_eq_ok] at judged
  obtain ⟨⟨control, late⟩, judgedRest, same⟩ := judged
  have nothing := judgeAll_final final judgedRest
  rw [nothing] at judgedRest
  cases judgedRest
  rw [append_nil] at same
  cases same
  obtain ⟨sameTrx, covers, merged⟩ := reached going rfl fresh fun start => by cases start
  refine ⟨unread, groups, rfl, nothing, rfl, fun key => ?_⟩
  have absent := covers.absent key
  have touched := covers.touched key
  rw [nil_append, append_nil] at absent touched
  rw [Transaction.commit_get]
  rw [save, sameTrx] at written
  cases found : transfer.merger.changes[key]? with
  | none =>
    refine Or.inl ⟨absent found, ?_⟩
    apply saveFrom_frame written key
    rintro ⟨other, merge⟩ member rfl
    rw [Std.ExtTreeMap.mem_toList_iff_getElem?_eq_some, found] at member
    cases member
  | some merge =>
    refine Or.inr ⟨merge, covers.present key merge found, merged key merge found,
      touched merge found, ?_⟩
    exact saveFrom_saved (OrderedMap.before_sorted _) written
      (Std.ExtTreeMap.mem_toList_iff_getElem?_eq_some.mpr found)

/-- The same for a property that does not look at the replies. -/
theorem handleIxfrPayloads_eq_ok {holds : Name → List Event → ZoneMerge → Prop}
    (trxId mySerial : Nat) (committed : Db Entry) (last : Control)
    (events : List Event) (preserved : Preserved recordSorter db trx (mySerial != 0) holds)
    (judged : judgeAll zone { isIxfr := mySerial != 0 } replies.flatten = .ok (last, events))
    (going : ∀ event ∈ events, event.action ≠ .restart)
    (returned : handleIxfrPayloads recordSorter indexSorter db zone trxId trx mySerial replies =
      .ok committed) (key : Name) :
    (eventsAt zone key events = [] ∧
        (committed.families .entry)[RealKey.ofName key]? = lookup db trx key) ∨
      ∃ merge : ZoneMerge, holds key (eventsAt zone key events) merge ∧ merge.Merged ∧
        (key = toLower zone ∨ eventsAt zone key events ≠ []) ∧
        merge.save indexSorter = .ok (committed.families .entry)[RealKey.ofName key]? := by
  obtain ⟨_, groups, _, _, rfl, outcome⟩ := handleIxfrPayloads_byReply trxId mySerial committed
    last events preserved.byReply judged going returned
  have here := outcome key
  rw [flatten_groupsAt, append_nil] at here
  exact here

end OneName

end Nsblast.Slave
