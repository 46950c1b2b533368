import Nsblast.Library.GroupedGrowth
import Nsblast.Slave.PayloadsRun
import Nsblast.Slave.Rdata
import Nsblast.Store.Primary

/-!
# What a full transfer leaves behind

`Slave::doAxfr` removes the entries of the zone, with a removal meant to reach
the names below it, and then stores the transfer. Three things keep the slave from
mirroring it.

- The removal deletes keys that end in the key of the zone, while the keys of the names
  below a zone begin with it. A name that was stored before and is not part of the transfer
  stays.
- The data of a record is copied as it stands in the message. A name in it that ends with a
  pointer is not written out.
- Of the records that a reply adds to a name, `std::set_difference` is to drop those that are
  there. It drops none that the reply has twice, and none that stands behind a greater one.
-/

namespace Nsblast.Slave

open List
open GroupedGrowth (Once Piled)

/-- What some records say about a name. -/
def saidAt (name : Name) (rrs : List Record) : List Body :=
  (rrs.filter (·.key == name)).map (·.toBody)

/-- A well-formed answer to an AXFR question for a zone: the SOA, records of names
in the zone that the store accepts as they are, and the SOA again. -/
structure AxfrAnswer (zone : Name) where
  first : Record
  middle : List Record
  last : Record
  serial : Nat
  firstSoa : first.type = RrType.soa
  firstOwner : first.key = zone
  firstSerial : soaSerial first.toBody = .ok serial
  lastSoa : last.type = RrType.soa
  lastOwner : last.key = zone
  lastSerial : soaSerial last.toBody = .ok serial
  plain : ∀ rr ∈ middle, rr.type ≠ RrType.soa
  within : ∀ rr ∈ middle, Name.Within zone rr.key
  sane : ∀ rr ∈ middle ++ [last], rr.clas = classIn ∧ rr.ttl ≤ ttlMax

namespace AxfrAnswer

open Run

variable {zone : Name} (answer : AxfrAnswer zone)

def records : List Record := answer.first :: answer.middle ++ [answer.last]

/-- What the answer says about a name. -/
def transferred (name : Name) : List Body := saidAt name (answer.middle ++ [answer.last])

/-- The store holds exactly the records of the answer, each once, at the zone and below it. -/
def Mirrors (committed : Db Entry) : Prop :=
  ∀ name, Name.Within zone name →
    (∀ entry, storedAt committed name = some entry →
      entry.bodies.Nodup ∧ ∀ body, body ∈ entry.bodies ↔ body ∈ answer.transferred name) ∧
    (storedAt committed name = none ↔ answer.transferred name = [])

/-- The answer, as it stands in its messages, means the other, which has all names in its
records written out. -/
structure Means (received meant : AxfrAnswer zone) : Prop where
  middle : Forall₂ Record.Means received.middle meant.middle
  last : received.last.Means meant.last

/-- The judgements on the records of the answer. -/
def events : List Event :=
  ⟨.pass, answer.first⟩ :: answer.middle.map (⟨.add, ·⟩) ++ [⟨.setSoa, answer.last⟩]

theorem zone_lower (answer : AxfrAnswer zone) : Name.toLower zone = zone := by
  rw [← answer.firstOwner, Record.key, Name.toLower_toLower]

/-- The first SOA opens the transfer. -/
theorem judge_first : judge zone { isIxfr := false } answer.first =
    .ok ({ stage := .haveFirstSoa, isIxfr := false, currentSerial := answer.serial }, .pass) := by
  have owner : ¬ zone ≠ Name.toLower answer.first.owner := fun differ => differ answer.firstOwner.symm
  have isSoa : ¬ answer.first.type ≠ RrType.soa := fun differ => differ answer.firstSoa
  rw [judge, if_neg (by decide), if_pos rfl, judgeFirst, throwIf_of_not isSoa, bind_ok,
    answer.firstSerial, bind_ok, throwIf_of_not owner, bind_ok]

/-- The records behind it, from either of the stages in which they are added. -/
theorem judge_rest (middle : List Record) (plain : ∀ rr ∈ middle, rr.type ≠ RrType.soa)
    (control : Control) (stage : control.stage = .haveFirstSoa ∨ control.stage = .haveIxfrAddSoa)
    (full : control.isIxfr = false) (current : control.currentSerial = answer.serial) :
    ∃ final, judgeAll zone control (middle ++ [answer.last]) =
      .ok (final, middle.map (⟨.add, ·⟩) ++ [⟨.setSoa, answer.last⟩]) := by
  have open_ : control.stage ≠ .haveFinalSoa ∧ control.stage ≠ .needFirstSoa := by
    rcases stage with stage | stage <;> rw [stage] <;> decide
  induction middle generalizing control with
  | nil =>
    have owner : ¬ zone ≠ Name.toLower answer.last.owner := fun differ => differ answer.lastOwner.symm
    have judged : judge zone control answer.last =
        .ok ({ control with stage := .haveFinalSoa, prevSerial := answer.serial }, .setSoa) := by
      rw [judge, if_neg open_.1, if_neg open_.2, if_pos answer.lastSoa, judgeSoa,
        throwIf_of_not owner, bind_ok, answer.lastSerial, bind_ok, judgeSerial,
        if_pos current.symm, full, if_neg (by simp)]
    exact ⟨_, judgeAll_cons [] judged⟩
  | cons rr rest ih =>
    have added : judge zone control rr =
        .ok ({ control with stage := .haveIxfrAddSoa, isIxfr := false }, .add) := by
      rw [judge, if_neg open_.1, if_neg open_.2, if_neg (plain rr mem_cons_self), judgePlain]
      rcases stage with stage | stage
      · rw [stage, full]
        rfl
      · have same : control = { control with stage := .haveIxfrAddSoa, isIxfr := false } := by
          rw [← stage, ← full]
        rw [stage]
        exact congrArg (fun next => Run.ok (next, Action.add)) same
    obtain ⟨final, judged⟩ := ih (fun other member => plain other (mem_cons_of_mem _ member))
      { control with stage := .haveIxfrAddSoa, isIxfr := false } (Or.inr rfl) rfl current
      (by simp)
    refine ⟨final, ?_⟩
    rw [cons_append, judgeAll_cons _ added, judged, bind_ok, map_cons, cons_append]

theorem judged : ∃ final, judgeAll zone { isIxfr := false } answer.records =
    .ok (final, answer.events) := by
  obtain ⟨final, rest⟩ := answer.judge_rest answer.middle answer.plain
    { stage := .haveFirstSoa, isIxfr := false, currentSerial := answer.serial } (Or.inl rfl) rfl rfl
  refine ⟨final, ?_⟩
  rw [records, cons_append, judgeAll_cons _ answer.judge_first, rest, bind_ok,
    events, cons_append]

/-- The records judged to concern a name are the ones transferred for it. -/
theorem eventsAt_events (name : Name) :
    (eventsAt zone name answer.events).map (·.rr) =
      (answer.middle ++ [answer.last]).filter (·.key == name) := by
  have first : eventsAt zone name [⟨.pass, answer.first⟩] = [] := eventsAt_pass name _
  have last : (eventsAt zone name [⟨.setSoa, answer.last⟩]).map (·.rr) =
      [answer.last].filter (·.key == name) := by
    rw [eventsAt, filter_singleton, filter_singleton, concerns_setSoa, answer.zone_lower,
      answer.lastOwner]
    cases zone == name <;> rfl
  have middle : (eventsAt zone name (answer.middle.map (⟨.add, ·⟩))).map (·.rr) =
      answer.middle.filter (·.key == name) := by
    rw [eventsAt, filter_map, map_map]
    exact map_id _
  rw [events, ← singleton_append, append_assoc, eventsAt_append, eventsAt_append, first,
    nil_append, map_append, middle, last, filter_append]

theorem eventsAt_bodies (name : Name) :
    (eventsAt zone name answer.events).map (·.rr.toBody) = answer.transferred name := by
  rw [transferred, saidAt, ← answer.eventsAt_events name, map_map]
  rfl

theorem mem_transferred {rr : Record} (member : rr ∈ answer.middle ++ [answer.last]) :
    rr.toBody ∈ answer.transferred rr.key :=
  mem_map_of_mem (mem_filter.mpr ⟨member, beq_self_eq_true _⟩)

/-- The zone itself is always transferred: it has the SOA. -/
theorem transferred_zone : answer.transferred zone ≠ [] := by
  have last := answer.mem_transferred (mem_append_right _ (mem_singleton_self _))
  rw [answer.lastOwner] at last
  exact ne_nil_of_mem last

theorem within_records {rr : Record} (member : rr ∈ answer.middle ++ [answer.last]) :
    Name.Within zone rr.key := by
  rcases mem_append.mp member with middle | last
  · exact answer.within rr middle
  · rw [mem_singleton.mp last]
    exact Or.inl answer.lastOwner

variable {received meant : AxfrAnswer zone}

theorem Means.records (means : received.Means meant) :
    Forall₂ Record.Means (received.middle ++ [received.last])
      (meant.middle ++ [meant.last]) :=
  rel_append means.middle (.cons means.last .nil)

/-- Whatever the names in the data are, the same names are transferred. -/
theorem Means.transferred_eq_nil_iff (means : received.Means meant) (name : Name) :
    meant.transferred name = [] ↔ received.transferred name = [] := by
  rw [transferred, transferred, saidAt, saidAt, map_eq_nil_iff, map_eq_nil_iff,
    filter_eq_nil_iff, filter_eq_nil_iff]
  have all := means.records
  generalize received.middle ++ [received.last] = rrs at all
  generalize meant.middle ++ [meant.last] = others at all
  induction all with
  | nil => exact Iff.rfl
  | cons one _ ih =>
    rw [forall_mem_cons, forall_mem_cons, one.key_eq]
    exact and_congr_right fun _ => ih

/-- What is meant contains no pointer. -/
theorem Means.written (means : received.Means meant) {body : Body} {name : Name}
    (member : body ∈ meant.transferred name) : body.Written := by
  obtain ⟨rr, listed, rfl⟩ := mem_map.mp member
  obtain ⟨_, _, one⟩ :=
    Run.exists_of_forall₂ means.records (mem_of_mem_filter listed)
  exact Record.Means.written one

/-- An answer without pointers means itself. -/
theorem Means.transferred_eq (means : received.Means meant)
    (written : ∀ rr ∈ received.middle ++ [received.last], rr.Written) (name : Name) :
    meant.transferred name = received.transferred name := by
  have all := means.records
  rw [transferred, transferred]
  generalize received.middle ++ [received.last] = rrs at all written
  generalize meant.middle ++ [meant.last] = others at all
  congr 1
  induction all with
  | nil => rfl
  | cons one _ ih =>
    rw [one.eq_iff.mpr (written _ mem_cons_self),
      ih fun rr member => written rr (mem_cons_of_mem _ member)]

end AxfrAnswer

section Mirror

variable (recordSorter : Sorter recordLess) (indexSorter : Sorter indexLess)
variable (db : Db Entry) (zone : Name)

/-- Records are compared by a strict total order. -/
theorem less_strictTotal : GroupedGrowth.StrictTotal Body.less where
  asymm {x y} before := by
    rw [Body.less, beq_iff_eq] at before
    rw [Body.less, Std.OrientedCmp.gt_of_lt before]
    rfl
  trans {x y z} first second := by
    rw [Body.less, beq_iff_eq] at *
    exact Std.TransCmp.lt_trans first second
  total low high := Body.eq_of_not_less low high

/-- The records are added, and the store accepts them as they are. -/
structure Accepted (events : List Event) : Prop where
  added : ∀ event ∈ events, event.action = .add ∨ event.action = .setSoa
  sane : ∀ event ∈ events, event.rr.clas = classIn ∧ event.rr.ttl ≤ ttlMax

/-- What the records say. -/
def bodiesOf (events : List Event) : List Body := events.map (·.rr.toBody)

/-- The changes at a name: the records of this reply wait, those of the replies before have been
merged one reply after the other. -/
structure Holding (groups : List (List Event)) (events : List Event) (merge : ZoneMerge) :
    Prop where
  need : merge.needNewBuilder = false
  deleted : merge.deleted = []
  whole : merge.Whole
  added : merge.added.map (·.toBody) = bodiesOf events
  piled : Piled Body.less (groups.map bodiesOf) (merge.sb.rrs.map (·.toBody))

def Collected (_ : Name) (groups : List (List Event)) (events : List Event) (merge : ZoneMerge) :
    Prop :=
  Accepted (groups.flatten ++ events) → Holding groups events merge

variable {key : Name} {groups : List (List Event)} {events : List Event} {merge next : ZoneMerge}
    (answer : AxfrAnswer zone) (name : Name)

/-- Step: a record. -/
theorem collected_event {event : Event} (collected : Collected key groups events merge)
    (acted : act false event.action event.rr merge = .ok next) :
    Collected key groups (events ++ [event]) next := by
  intro accepted
  rw [← append_assoc] at accepted
  have before : Accepted (groups.flatten ++ events) :=
    ⟨fun other member => accepted.added other (mem_append_left _ member),
      fun other member => accepted.sane other (mem_append_left _ member)⟩
  have same : next = merge.addAdded event.rr := by
    rcases accepted.added event (by simp) with add | soa
    · simp only [act, add] at acted
      cases acted
      rfl
    · simp only [act, soa] at acted
      cases acted
      rfl
  obtain ⟨need, deleted, whole, added, piled⟩ := collected before
  subst same
  refine ⟨need, deleted, whole, ?_, piled⟩
  rw [ZoneMerge.addAdded, map_append, added, bodiesOf, bodiesOf, map_append]
  rfl

/-- Step: a merge. -/
theorem collected_merge (collected : Collected key groups events merge)
    (merged : merge.merge recordSorter = .ok next) :
    Collected key (groups ++ [events]) [] next := by
  intro accepted
  rw [append_nil, flatten_append, flatten_singleton] at accepted
  obtain ⟨need, deleted, whole, added, piled⟩ := collected accepted
  obtain ⟨⟨noAdded, noDeleted⟩, needNext, _⟩ := ZoneMerge.merge_eq_ok merge merged
  obtain ⟨wholeNext, builder⟩ := ZoneMerge.merge_whole merged deleted whole
  have perm : ((recordSorter.sort merge.added).map (·.toBody)).Perm (bodiesOf events) := by
    rw [← added]
    exact (recordSorter.perm merge.added).map _
  have sane : ∀ body ∈ setDifference Body.less ((recordSorter.sort merge.added).map (·.toBody))
      (merge.sb.rrs.map (·.toBody)), StorageBuilder.sanitized body = body := by
    intro body member
    obtain ⟨event, listed, rfl⟩ :=
      mem_map.mp (perm.mem_iff.mp ((setDifference_sublist _ _ _).subset member))
    obtain ⟨inClass, accepts⟩ := accepted.sane event (mem_append_right _ listed)
    exact StorageBuilder.sanitized_of_sane inClass accepts
  refine ⟨?_, noDeleted, wholeNext, by rw [noAdded]; rfl, ?_⟩
  · rw [needNext, need, deleted]
    rfl
  · rw [builder, map_congr_left sane, map_id'', map_append]
    · exact piled.concat less_strictTotal perm
        (pairwise_map.mpr (recordSorter.sorted merge.added))
    · exact fun _ => rfl

theorem collected_preserved (trx : Transaction Entry) :
    PreservedByReply recordSorter db trx false Collected where
  fresh := by
    intro key count merge started _
    cases started
    refine ⟨rfl, rfl, rfl, rfl, ?_⟩
    rw [map_replicate]
    exact GroupedGrowth.piled_nil count
  event := by
    intro key groups events event merge next collected _ acted
    exact collected_event collected acted
  merge := by
    intro key groups events merge next collected merged
    exact collected_merge recordSorter collected merged

/-- The keys the removal of the zone deletes. -/
def removedKeys : List Key :=
  (Transaction.keysFrom db {} .entry (RealKey.ofName zone)).takeWhile
    (Transaction.isWithin (RealKey.ofName zone))

/-- What is left of a name when the zone has been removed. -/
theorem lookup_removed :
    lookup db (Transaction.remove db {} (RealKey.ofName zone) true .entry) name =
      if RealKey.ofName name ∈ removedKeys db zone then none else storedAt db name := by
  rw [lookup, Transaction.remove, if_pos rfl, Transaction.get_removeFrom]
  rfl

variable {zone}

theorem AxfrAnswer.accepted :
    Accepted (eventsAt zone name answer.events) := by
  have records := answer.eventsAt_events name
  refine ⟨?_, ?_⟩
  · intro event member
    obtain ⟨listed, concerned⟩ := mem_filter.mp member
    rw [AxfrAnswer.events, mem_append, mem_cons, mem_map, mem_singleton] at listed
    rcases listed with (rfl | ⟨rr, _, rfl⟩) | rfl
    · simp [concerns] at concerned
    · exact Or.inl rfl
    · exact Or.inr rfl
  · intro event member
    have listed : event.rr ∈ (eventsAt zone name answer.events).map (·.rr) :=
      mem_map_of_mem member
    rw [records] at listed
    exact answer.sane event.rr (mem_of_mem_filter listed)

/-- What a group of judgements says about a name, if all its records are added. -/
theorem bodiesOf_eventsAt {zone : Name} {group : List Event} (name : Name)
    (lower : Name.toLower zone = zone) (added : ∀ event ∈ group, event.action = .add ∨
      (event.action = .setSoa ∧ event.rr.key = zone)) :
    bodiesOf (eventsAt zone name group) = saidAt name (group.map (·.rr)) := by
  rw [bodiesOf, eventsAt, saidAt, filter_map, map_map]
  congr 1
  apply filter_congr
  rintro ⟨action, rr⟩ member
  rcases added ⟨action, rr⟩ member with add | ⟨soa, owner⟩
  · cases add
    exact concerns_add zone name rr
  · cases soa
    rw [concerns_setSoa, lower, ← owner]
    rfl

/-- The judgements reply by reply, as the replies say. The first record is passed over, and
replies behind the last record are not read. -/
theorem AxfrAnswer.groups_said {head : List Record} {rest unread : List (List Record)}
    {groups : List (List Event)}
    (replies : (answer.first :: head) :: rest = groups.map (fun group => group.map (·.rr)) ++ unread)
    (nothing : unread.flatten = []) (judged : groups.flatten = answer.events) :
    (head :: rest).map (saidAt name) =
      (groupsAt zone name groups).map bodiesOf ++ replicate unread.length [] := by
  have behind : unread.map (saidAt name) = replicate unread.length [] := by
    refine eq_replicate_iff.mpr ⟨length_map _, fun said member => ?_⟩
    obtain ⟨reply, listed, rfl⟩ := mem_map.mp member
    rw [flatten_eq_nil_iff.mp nothing reply listed]
    rfl
  cases groups with
  | nil => cases judged
  | cons group groups =>
    rw [map_cons, cons_append] at replies
    obtain ⟨firstReply, others⟩ := cons.inj replies
    cases group with
    | nil => cases firstReply
    | cons event events =>
      rw [flatten_cons, cons_append, AxfrAnswer.events, cons_append] at judged
      obtain ⟨rfl, later⟩ := cons.inj judged
      have added : ∀ event ∈ events ++ groups.flatten, event.action = .add ∨
          (event.action = .setSoa ∧ event.rr.key = zone) := by
        intro event member
        rw [later, mem_append, mem_map, mem_singleton] at member
        rcases member with ⟨rr, _, rfl⟩ | rfl
        · exact Or.inl rfl
        · exact Or.inr ⟨rfl, answer.lastOwner⟩
      have passed : eventsAt zone name (⟨.pass, answer.first⟩ :: events) =
          eventsAt zone name events := rfl
      have one := bodiesOf_eventsAt name answer.zone_lower
        fun event member => added event (mem_append_left _ member)
      rw [groupsAt, map_cons, map_cons, map_cons, passed, one,
        (cons.inj firstReply).2, cons_append, others, map_append, behind,
        map_map, map_map]
      congr 2
      apply map_congr_left
      intro group member
      exact (bodiesOf_eventsAt name answer.zone_lower fun event listed =>
        added event (mem_append_right _ (mem_flatten_of_mem member listed))).symm

/-- What a committed transfer has left at a name: the transferred records, each of them once if
the replies keep to `Once`, or for a name without any, what the removal has left. -/
theorem doAxfr_at (trxId : Nat) (head : List Record) (rest : List (List Record))
    (split : (head :: rest).flatten = answer.middle ++ [answer.last]) {committed : Db Entry}
    (commits : doAxfr recordSorter indexSorter db zone trxId ((answer.first :: head) :: rest) =
      .ok committed) (name : Name) :
    (answer.transferred name ≠ [] ∧ ∃ entry, storedAt committed name = some entry ∧
        (∀ body, body ∈ entry.bodies ↔ body ∈ answer.transferred name) ∧
        (entry.bodies.Nodup ↔ Once Body.less ((head :: rest).map (saidAt name)))) ∨
      (answer.transferred name = [] ∧ storedAt committed name =
        if RealKey.ofName name ∈ removedKeys db zone then none else storedAt db name) := by
  obtain ⟨final, judged⟩ := answer.judged
  have going : ∀ event ∈ answer.events, event.action ≠ .restart := by
    intro event member
    rw [AxfrAnswer.events, mem_append, mem_cons, mem_map, mem_singleton] at member
    rcases member with (rfl | ⟨rr, _, rfl⟩) | rfl <;> simp
  have whole : ((answer.first :: head) :: rest).flatten = answer.records := by
    rw [AxfrAnswer.records, cons_append, ← split]
    rfl
  rw [← whole] at judged
  obtain ⟨unread, groups, replies, nothing, flat, outcome⟩ := handleIxfrPayloads_byReply trxId 0
    committed final answer.events (collected_preserved recordSorter db _) judged going commits
  rcases outcome name with ⟨none, same⟩ | ⟨merge, collected, ⟨noAdded, _⟩, touched, saved⟩
  · refine Or.inr ⟨?_, ?_⟩
    · rw [← answer.eventsAt_bodies, none, map_nil]
    · rw [← lookup_removed]
      exact same
  · have accepted := answer.accepted name
    rw [← flat, ← flatten_groupsAt, ← append_nil (groupsAt zone name groups).flatten]
      at accepted
    obtain ⟨need, _, _, _, piled⟩ := collected accepted
    have piled := piled.append_replicate less_strictTotal unread.length
    rw [← answer.groups_said name replies nothing flat] at piled
    have said : ((head :: rest).map (saidAt name)).flatten = answer.transferred name := by
      rw [AxfrAnswer.transferred, ← split, saidAt, filter_flatten, map_flatten,
        map_map]
      rfl
    have some : answer.transferred name ≠ [] := by
      rcases touched with here | events
      · rw [answer.zone_lower] at here
        subst here
        exact answer.transferred_zone
      · rw [← answer.eventsAt_bodies]
        exact fun none => events (map_eq_nil_iff.mp none)
    refine Or.inl ⟨some, ?_⟩
    rcases ZoneMerge.save_eq_ok merge saved with
      ⟨needed, _⟩ | ⟨_, ⟨empty, _⟩ | ⟨entry, stored, _, kept⟩⟩
    · cases need.symm.trans needed
    · refine absurd (eq_nil_iff_forall_not_mem.mpr fun body member => ?_) some
      rw [← said, ← piled.mem, empty] at member
      cases member
    · have perm : entry.bodies.Perm (merge.sb.rrs.map (·.toBody)) := kept.map _
      refine ⟨entry, stored, fun body => ?_, ?_⟩
      · rw [perm.mem_iff, piled.mem, said]
      · rw [perm.nodup_iff, piled.once]

/-- A committed full transfer is mirrored exactly under three conditions: every name stored below
the zone is part of the transfer or among the few the removal deletes, no name inside the data of
a record ends with a pointer, and at each name no reply has a record twice and no record comes
again that first came in a reply behind one with a greater record. -/
theorem doAxfr_mirrors_iff_no_stale_name (received meant : AxfrAnswer zone)
    (means : received.Means meant) (trxId : Nat) (head : List Record) (rest : List (List Record))
    (split : (head :: rest).flatten = received.middle ++ [received.last]) (committed : Db Entry)
    (commits : doAxfr recordSorter indexSorter db zone trxId ((received.first :: head) :: rest) =
      .ok committed) :
    meant.Mirrors committed ↔
      (∀ name, Name.Below zone name → (storedAt db name).isSome →
        received.transferred name ≠ [] ∨ RealKey.ofName name ∈ removedKeys db zone) ∧
      (∀ rr ∈ received.middle ++ [received.last], rr.Written) ∧
      ∀ name, Name.Within zone name → Once Body.less ((head :: rest).map (saidAt name)) := by
  have outcome := doAxfr_at recordSorter indexSorter db received trxId head rest split commits
  constructor
  · intro mirrors
    refine ⟨?_, ?_, ?_⟩
    · intro name below before
      rcases outcome name with ⟨some, _⟩ | ⟨none, left⟩
      · exact Or.inl some
      · refine Or.inr ?_
        by_contra kept
        have gone := (mirrors name (Or.inr below)).2.mpr ((means.transferred_eq_nil_iff name).mpr none)
        rw [if_neg kept, gone] at left
        rw [← left] at before
        cases before
    · intro rr member
      have said := received.mem_transferred member
      rcases outcome rr.key with ⟨_, entry, stored, same, _⟩ | ⟨none, _⟩
      · have mirrored := ((mirrors rr.key (received.within_records member)).1 entry stored).2
        exact means.written ((mirrored _).mp ((same _).mpr said))
      · rw [none] at said
        cases said
    · intro name within
      rcases outcome name with ⟨_, entry, stored, _, once⟩ | ⟨none, _⟩
      · exact once.mp ((mirrors name within).1 entry stored).1
      · apply GroupedGrowth.once_of_flatten_nil
        rw [← none, AxfrAnswer.transferred, ← split, saidAt, filter_flatten, map_flatten,
          map_map]
        rfl
  · rintro ⟨fresh, written, once⟩ name within
    rw [means.transferred_eq written]
    rcases outcome name with ⟨some, entry, stored, same, single⟩ | ⟨none, left⟩
    · refine ⟨?_, ?_⟩
      · intro other found
        cases stored.symm.trans found
        exact ⟨single.mpr (once name within), same⟩
      · rw [stored]
        exact ⟨nofun, fun none => absurd none some⟩
    · have gone : storedAt committed name = Option.none := by
        rw [left]
        split
        · rfl
        · rename_i kept
          rcases within with rfl | below
          · exact absurd none received.transferred_zone
          · cases before : storedAt db name with
            | none => rfl
            | some entry =>
              rcases fresh name below (by rw [before]; rfl) with some | removed
              · exact absurd none some
              · exact absurd removed kept
      rw [gone]
      exact ⟨nofun, fun _ => none, fun _ => rfl⟩

/-- The SOA of the zone `a`. -/
def soaOfA (serial : Nat) : Record where
  owner := [0x61]
  type := RrType.soa
  clas := classIn
  ttl := 300
  rdata := [0, 0] ++ be32 serial ++ replicate 16 0

/-- An address of the name `b.a`. -/
def addressOfB (octet : UInt8) : Record where
  owner := [0x62, 0x2E, 0x61]
  type := RrType.a
  clas := classIn
  ttl := 300
  rdata := [octet, octet, octet, octet]

/-- The zone `a` has the name server `b.a`. -/
def serverOfA : Record where
  owner := [0x61]
  type := RrType.ns
  clas := classIn
  ttl := 300
  rdata := [1, 0x62, 1, 0x61, 0]

theorem soaOfA_one : soaSerial (soaOfA 1).toBody = .ok 1 := by decide

theorem plain_nil : ∀ rr ∈ ([] : List Record), rr.type ≠ RrType.soa := forall_mem_nil _

/-- A transfer of the zone `a` with some records between its SOAs. -/
def transferOfA (middle : List Record) (plain : ∀ rr ∈ middle, rr.type ≠ RrType.soa)
    (within : ∀ rr ∈ middle, Name.Within [0x61] rr.key)
    (sane : ∀ rr ∈ middle ++ [soaOfA 1], rr.clas = classIn ∧ rr.ttl ≤ ttlMax) :
    AxfrAnswer [0x61] where
  first := soaOfA 1
  middle := middle
  last := soaOfA 1
  serial := 1
  firstSoa := rfl
  firstOwner := by decide
  firstSerial := soaOfA_one
  lastSoa := rfl
  lastOwner := by decide
  lastSerial := soaOfA_one
  plain := plain
  within := within
  sane := sane

/-- Nothing but the SOA. -/
def onlySoa : AxfrAnswer [0x61] :=
  transferOfA [] plain_nil (by decide) (by decide)

/-- A name server and its addresses, one of which is sent twice. -/
def serverAndAddresses : AxfrAnswer [0x61] :=
  transferOfA [addressOfB 2, addressOfB 1, addressOfB 1, serverOfA] (by decide) (by decide)
    (by decide)

/-- A slave that has one entry, at the name `b.a`. -/
def slaveWithB : Db Entry where
  families := fun category =>
    if category = .entry then
      (∅ : ColumnFamily Entry).insert (RealKey.ofName [0x62, 0x2E, 0x61])
        ⟨none, 0, [StorageBuilder.newRr [0x62, 0x2E, 0x61] false RrType.a 300 [3, 3, 3, 3]]⟩
    else ∅
  trxlog := ∅

/-- The old address of `b.a` makes way for the new ones. The address that comes again in the
second reply is stored once. -/
theorem addresses_replaced_by_transfer :
    ∃ committed, doAxfr insertionRecords insertionIndex slaveWithB [0x61] 0
        [[soaOfA 1, addressOfB 2, addressOfB 1], [addressOfB 1, serverOfA, soaOfA 1]] =
          .ok committed ∧
      serverAndAddresses.Mirrors committed := by
  obtain ⟨committed, commits⟩ := (Run.isOk_iff (doAxfr insertionRecords insertionIndex slaveWithB
    [0x61] 0 [[soaOfA 1, addressOfB 2, addressOfB 1], [addressOfB 1, serverOfA, soaOfA 1]])).mp
    (by decide +kernel)
  refine ⟨committed, commits, ?_⟩
  have written : ∀ rr ∈ serverAndAddresses.middle ++ [serverAndAddresses.last], rr.Written := by
    decide +kernel
  have means : serverAndAddresses.Means serverAndAddresses := by
    refine ⟨forall₂_same.mpr fun rr member => ?_, Record.means_self (written _ (by simp))⟩
    exact Record.means_self (written rr (mem_append_left _ member))
  apply (doAxfr_mirrors_iff_no_stale_name insertionRecords insertionIndex slaveWithB
    serverAndAddresses serverAndAddresses means 0 [addressOfB 2, addressOfB 1]
    [[addressOfB 1, serverOfA, soaOfA 1]] rfl committed commits).mpr
  refine ⟨?_, written, ?_⟩
  · intro name _ before
    have named : RealKey.ofName [0x62, 0x2E, 0x61] = RealKey.ofName name := by
      by_contra other
      simp [storedAt, slaveWithB, other] at before
    rw [← RealKey.ofName_injective named]
    exact Or.inl (by decide)
  · intro name _
    rw [map_cons, map_singleton, GroupedGrowth.once_pair_iff]
    constructor
    · exact (filter_sublist.map _).nodup (by decide +kernel)
    · exact (filter_sublist.map _).nodup (by decide +kernel)

/-- The entry `b.a` is still there after a transfer without it. -/
theorem stale_name_survives_transfer :
    ∃ committed, doAxfr insertionRecords insertionIndex slaveWithB [0x61] 0
      [[soaOfA 1, soaOfA 1]] = .ok committed ∧ ¬ onlySoa.Mirrors committed := by
  obtain ⟨committed, commits⟩ := (Run.isOk_iff (doAxfr insertionRecords insertionIndex slaveWithB
    [0x61] 0 [[soaOfA 1, soaOfA 1]])).mp (by decide +kernel)
  refine ⟨committed, commits, ?_⟩
  intro mirrors
  have gone := (mirrors [0x62, 0x2E, 0x61] (by decide)).2.mpr (by decide)
  rcases doAxfr_at insertionRecords insertionIndex slaveWithB onlySoa 0 [soaOfA 1] [] rfl commits
    [0x62, 0x2E, 0x61] with ⟨some, _⟩ | ⟨_, left⟩
  · exact some (by decide)
  · rw [gone] at left
    exact absurd left (by decide +kernel)

end Mirror

end Nsblast.Slave
