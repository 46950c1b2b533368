import Nsblast.Slave.AxfrMirror

/-!
# Differences applied one after the other

An answer with differences is meant to be applied sequence by sequence: remove
the deleted records, add the added ones, go on. `Slave::handleIxfrPayloads`
pools the records of a reply and merges them at its end. Without deletions at a
name the result is the same, if the names in the data of the added records are written out.
With one, nothing is saved at the name unless every record there has been erased, and then
the entry is removed; that is right only if the sequences leave nothing at the name.

Records are compared in the form in which the builder stores them, with the class
`IN` and a time to live it accepts, and as sets.
-/

namespace Nsblast.Slave

open StorageBuilder (sanitized)
open List ZoneMerge Run

theorem sanitized_sanitized (body : Body) : sanitized (sanitized body) = sanitized body :=
  StorageBuilder.sanitized_of_sane rfl (StorageBuilder.sanitizeTtl_le _)

/-- What a record says, as the store keeps it. -/
def stated (rr : Record) : Body := sanitized rr.toBody

theorem stated_written (rr : Record) : (stated rr).Written ↔ rr.Written := Iff.rfl

/-- One difference sequence. Its serials rise. -/
structure Difference (zone : Name) where
  oldSoa : Record
  deleted : List Record
  newSoa : Record
  added : List Record
  oldSerial : Nat
  newSerial : Nat
  oldIsSoa : oldSoa.type = RrType.soa
  oldOwner : oldSoa.key = zone
  oldHas : soaSerial oldSoa.toBody = .ok oldSerial
  newIsSoa : newSoa.type = RrType.soa
  newOwner : newSoa.key = zone
  newHas : soaSerial newSoa.toBody = .ok newSerial
  rises : oldSerial < newSerial
  plainDeleted : ∀ rr ∈ deleted, rr.type ≠ RrType.soa
  plainAdded : ∀ rr ∈ added, rr.type ≠ RrType.soa

/-- A well-formed answer to an IXFR question: the current SOA, difference
sequences up to the current serial, and the current SOA again. -/
structure IxfrAnswer (zone : Name) where
  first : Record
  differences : List (Difference zone)
  last : Record
  serial : Nat
  firstSoa : first.type = RrType.soa
  firstOwner : first.key = zone
  firstSerial : soaSerial first.toBody = .ok serial
  lastSoa : last.type = RrType.soa
  lastOwner : last.key = zone
  lastSerial : soaSerial last.toBody = .ok serial
  bounded : ∀ difference ∈ differences, difference.newSerial ≤ serial

/-- The records of each name. -/
abbrev Content := Name → List Body

/-- What the store says about each name. -/
def contentOf (db : Db Entry) : Content := fun name =>
  match storedAt db name with
  | some entry => entry.bodies.map sanitized
  | none => []

/-- The same records at every name. -/
def Content.Agrees (first second : Content) : Prop :=
  ∀ name body, body ∈ first name ↔ body ∈ second name

namespace Difference

variable {zone : Name} (difference : Difference zone)

def records : List Record :=
  difference.oldSoa :: difference.deleted ++ difference.newSoa :: difference.added

/-- Removing the deleted records and adding the added ones. -/
def apply (content : Content) : Content := fun name =>
  (content name).filter
      (fun body => !difference.deleted.any fun rr => rr.key == name && stated rr == body) ++
    (difference.added.filter (·.key == name)).map stated

/-- The sequence, as it stands in its messages, means the other, which has all names in its
records written out. -/
structure Means (received meant : Difference zone) : Prop where
  deleted : Forall₂ Record.Means received.deleted meant.deleted
  added : Forall₂ Record.Means received.added meant.added

def events : List Event :=
  ⟨.pass, difference.oldSoa⟩ :: difference.deleted.map (⟨.delete, ·⟩) ++
    ⟨.pass, difference.newSoa⟩ :: difference.added.map (⟨.add, ·⟩)

end Difference

namespace IxfrAnswer

variable {zone : Name} (answer : IxfrAnswer zone)

def records : List Record :=
  answer.first :: answer.differences.flatMap Difference.records ++ [answer.last]

/-- Applying the sequences in order, and then the current SOA. -/
def result (start : Content) : Content := fun name =>
  let content := answer.differences.foldl (fun content difference => difference.apply content) start
  if name = zone then
    (content name).filter (fun body => body.type != RrType.soa) ++ [stated answer.last]
  else content name

/-- Some sequence deletes a record at the name. -/
def Deletes (name : Name) : Prop :=
  ∃ difference ∈ answer.differences, ∃ rr ∈ difference.deleted, rr.key = name

/-- What is added, the current SOA among it. -/
def additions : List Record := answer.differences.flatMap (·.added) ++ [answer.last]

structure Means (received meant : IxfrAnswer zone) : Prop where
  differences : Forall₂ Difference.Means received.differences meant.differences
  last : received.last.Means meant.last

def events : List Event :=
  ⟨.pass, answer.first⟩ :: answer.differences.flatMap Difference.events ++ [⟨.setSoa, answer.last⟩]

end IxfrAnswer

section Judgements

variable {zone : Name}

/-- Between two sequences. -/
def Ready (serial : Nat) (control : Control) : Prop :=
  (control.stage = .haveFirstSoa ∨ control.stage = .haveIxfrAddSoa) ∧ control.isIxfr = true ∧
    control.currentSerial = serial

variable {control : Control} {serial : Nat} {difference : Difference zone}

/-- Plain records are all judged alike in a stage that takes them. -/
theorem judgeAll_plain {action : Action} {rrs : List Record}
    (plain : ∀ rr ∈ rrs, rr.type ≠ RrType.soa) (opened : control.stage ≠ .haveFinalSoa)
    (started : control.stage ≠ .needFirstSoa) (taken : judgePlain control = (control, action)) :
    judgeAll zone control rrs = .ok (control, rrs.map (⟨action, ·⟩)) := by
  induction rrs with
  | nil => rfl
  | cons rr rest ih =>
    have judged : judge zone control rr = .ok (control, action) := by
      rw [judge, if_neg opened, if_neg started, if_neg (plain rr mem_cons_self), taken]
    rw [judgeAll_cons rest judged,
      ih fun other member => plain other (mem_cons_of_mem _ member), bind_ok, map_cons]

/-- A later SOA of the zone is judged by its serial. -/
theorem judge_soa {rr : Record} (isSoa : rr.type = RrType.soa) (owner : rr.key = zone)
    (has : soaSerial rr.toBody = .ok serial) (opened : control.stage ≠ .haveFinalSoa)
    (started : control.stage ≠ .needFirstSoa) :
    judge zone control rr = judgeSerial control serial := by
  have sameOwner : ¬ zone ≠ Name.toLower rr.owner := fun differ => differ owner.symm
  rw [judge, if_neg opened, if_neg started, if_pos isSoa, judgeSoa, throwIf_of_not sameOwner,
    bind_ok, has, bind_ok]

theorem Ready.stages (ready : Ready serial control) :
    control.stage ≠ .haveFinalSoa ∧ control.stage ≠ .needFirstSoa ∧
      control.stage ≠ .haveIxfrDelSoa := by
  rcases ready.1 with stage | stage <;> rw [stage] <;> decide

/-- The SOA that opens the deletions of a sequence. -/
theorem judge_oldSoa (ready : Ready serial control) (bounded : difference.newSerial ≤ serial) :
    judge zone control difference.oldSoa = .ok ({ control with
      stage := .haveIxfrDelSoa, prevSerial := difference.oldSerial }, .pass) := by
  obtain ⟨opened, started, _⟩ := ready.stages
  have below : difference.oldSerial < control.currentSerial := by
    rw [ready.2.2]
    exact Nat.lt_of_lt_of_le difference.rises bounded
  have incremental : ¬ control.isIxfr = false := by
    rw [ready.2.1]
    decide
  rw [judge_soa difference.oldIsSoa difference.oldOwner difference.oldHas opened started,
    judgeSerial, if_neg (Nat.ne_of_lt below), if_pos below, judgeOldSoa,
    throwIf_of_not incremental, bind_ok]
  rcases ready.1 with stage | stage <;> rw [stage]

/-- The SOA that opens the additions of a sequence. -/
theorem judge_newSoa (stage : control.stage = .haveIxfrDelSoa) (incremental : control.isIxfr = true)
    (current : control.currentSerial = serial)
    (previous : control.prevSerial = difference.oldSerial)
    (bounded : difference.newSerial ≤ serial) :
    judge zone control difference.newSoa = .ok ({ control with
      stage := .haveIxfrAddSoa, prevSerial := difference.newSerial }, .pass) := by
  have opened : control.stage ≠ .haveFinalSoa := by rw [stage]; decide
  have started : control.stage ≠ .needFirstSoa := by rw [stage]; decide
  rw [judge_soa difference.newIsSoa difference.newOwner difference.newHas opened started,
    judgeSerial]
  by_cases final : difference.newSerial = control.currentSerial
  · rw [if_pos final, if_pos ⟨incremental, stage⟩]
  · have below : difference.newSerial < control.currentSerial := by omega
    have rising : ¬ difference.newSerial ≤ control.prevSerial := by
      rw [previous]
      exact Nat.not_le.mpr difference.rises
    have notFull : ¬ control.isIxfr = false := by rw [incremental]; decide
    rw [if_neg final, if_pos below, judgeOldSoa, throwIf_of_not notFull, bind_ok, stage]
    simp [throwIf_of_not rising]

/-- One sequence leads from one place between sequences to the next. -/
theorem judge_difference (ready : Ready serial control) (bounded : difference.newSerial ≤ serial) :
    ∃ next, Ready serial next ∧
      judgeAll zone control difference.records = .ok (next, difference.events) := by
  let deleting : Control := { control with
    stage := .haveIxfrDelSoa, prevSerial := difference.oldSerial }
  let adding : Control := { deleting with
    stage := .haveIxfrAddSoa, prevSerial := difference.newSerial }
  have old : judge zone control difference.oldSoa = .ok (deleting, .pass) :=
    judge_oldSoa ready bounded
  have new : judge zone deleting difference.newSoa = .ok (adding, .pass) :=
    judge_newSoa rfl ready.2.1 ready.2.2 rfl bounded
  have deletions : judgeAll zone deleting difference.deleted =
      .ok (deleting, difference.deleted.map (⟨.delete, ·⟩)) :=
    judgeAll_plain difference.plainDeleted nofun nofun rfl
  have additions : judgeAll zone adding difference.added =
      .ok (adding, difference.added.map (⟨.add, ·⟩)) :=
    judgeAll_plain difference.plainAdded nofun nofun rfl
  refine ⟨adding, ⟨Or.inr rfl, ready.2.1, ready.2.2⟩, ?_⟩
  rw [Difference.records, cons_append, judgeAll_cons _ old,
    judgeAll_append _ _ deletions, judgeAll_cons _ new, additions]
  rfl

theorem judge_differences (differences : List (Difference zone)) (serial : Nat)
    (control : Control) (ready : Ready serial control)
    (bounded : ∀ difference ∈ differences, difference.newSerial ≤ serial) :
    ∃ next, Ready serial next ∧ judgeAll zone control (differences.flatMap Difference.records) =
      .ok (next, differences.flatMap Difference.events) := by
  induction differences generalizing control with
  | nil => exact ⟨control, ready, rfl⟩
  | cons difference rest ih =>
    obtain ⟨middle, readyMiddle, judged⟩ := judge_difference ready
      (bounded difference mem_cons_self)
    obtain ⟨next, readyNext, judgedRest⟩ := ih middle readyMiddle
      fun other member => bounded other (mem_cons_of_mem _ member)
    refine ⟨next, readyNext, ?_⟩
    rw [flatMap_cons, flatMap_cons, judgeAll_append _ _ judged,
      judgedRest, bind_ok]

theorem IxfrAnswer.judged (answer : IxfrAnswer zone) :
    ∃ final, judgeAll zone { isIxfr := true } answer.records = .ok (final, answer.events) := by
  let opened : Control :=
    { stage := .haveFirstSoa, isIxfr := true, currentSerial := answer.serial }
  have first : judge zone { isIxfr := true } answer.first = .ok (opened, .pass) := by
    have owner : ¬ zone ≠ Name.toLower answer.first.owner :=
      fun differ => differ answer.firstOwner.symm
    have isSoa : ¬ answer.first.type ≠ RrType.soa := fun differ => differ answer.firstSoa
    rw [judge, if_neg (by simp), if_pos rfl, judgeFirst, throwIf_of_not isSoa, bind_ok,
      answer.firstSerial, bind_ok, throwIf_of_not owner, bind_ok]
  obtain ⟨next, ready, middle⟩ := judge_differences answer.differences answer.serial opened
    ⟨Or.inl rfl, rfl, rfl⟩ answer.bounded
  obtain ⟨going, started, notDeleting⟩ := ready.stages
  let final : Control := { next with stage := .haveFinalSoa, prevSerial := answer.serial }
  have last : judge zone next answer.last = .ok (final, .setSoa) := by
    rw [judge_soa answer.lastSoa answer.lastOwner answer.lastSerial going started,
      judgeSerial, if_pos ready.2.2.symm, if_neg fun both => notDeleting both.2]
  refine ⟨final, ?_⟩
  rw [records, cons_append, judgeAll_cons _ first,
    judgeAll_append _ _ middle, judgeAll_cons _ last]
  rfl

end Judgements

section Sequence

variable {zone : Name}

/-- One record applied to the records of its name. -/
def applyEvent (content : List Body) (event : Event) : List Body :=
  match event.action with
  | .add => content ++ [stated event.rr]
  | .delete => content.filter fun body => !(stated event.rr == body)
  | .setSoa => content.filter (fun body => body.type != RrType.soa) ++ [stated event.rr]
  | _ => content

variable (rrs : List Record) (answer : IxfrAnswer zone) (content : Content) (name : Name)

theorem foldl_deletions (content : List Body) :
    (rrs.map (Event.mk .delete)).foldl applyEvent content =
      content.filter fun body => !rrs.any fun rr => stated rr == body := by
  induction rrs generalizing content with
  | nil => simp
  | cons rr rest ih =>
    rw [map_cons, foldl_cons, ih, applyEvent, filter_filter]
    apply filter_congr
    intro body _
    rw [any_cons, Bool.not_or, Bool.and_comm]

theorem foldl_additions (content : List Body) :
    (rrs.map (Event.mk .add)).foldl applyEvent content = content ++ rrs.map stated := by
  induction rrs generalizing content with
  | nil => simp
  | cons rr rest ih =>
    rw [map_cons, foldl_cons, ih, applyEvent, append_assoc, singleton_append, map_cons]

/-- The records of one sequence, applied to a name in turn, are the sequence
applied as a whole. -/
theorem foldl_difference (difference : Difference zone) (content : Content) (name : Name) :
    (eventsAt zone name difference.events).foldl applyEvent (content name) =
      difference.apply content name := by
  have deletions : eventsAt zone name (difference.deleted.map (Event.mk .delete)) =
      (difference.deleted.filter (·.key == name)).map (Event.mk .delete) :=
    filter_map
  have additions : eventsAt zone name (difference.added.map (Event.mk .add)) =
      (difference.added.filter (·.key == name)).map (Event.mk .add) :=
    filter_map
  have split : eventsAt zone name difference.events =
      eventsAt zone name (difference.deleted.map (Event.mk .delete)) ++
        eventsAt zone name (difference.added.map (Event.mk .add)) := by
    rw [Difference.events, cons_append, ← singleton_append, eventsAt_append,
      eventsAt_pass, nil_append, eventsAt_append, ← singleton_append, eventsAt_append,
      eventsAt_pass, nil_append]
  rw [split, deletions, additions, foldl_append, foldl_deletions, foldl_additions, Difference.apply]
  simp

theorem foldl_differences (differences : List (Difference zone)) (content : Content) (name : Name) :
    (eventsAt zone name (differences.flatMap Difference.events)).foldl applyEvent (content name) =
      differences.foldl (fun content difference => difference.apply content) content name := by
  induction differences generalizing content with
  | nil => rfl
  | cons difference rest ih =>
    rw [flatMap_cons, eventsAt_append, foldl_append, foldl_difference, ih, foldl_cons]

theorem IxfrAnswer.zone_lower (answer : IxfrAnswer zone) : Name.toLower zone = zone := by
  rw [← answer.firstOwner, Record.key, Name.toLower_toLower]

/-- The result at a name is that of the records which concern it, in order. -/
theorem IxfrAnswer.foldl_events :
    (eventsAt zone name answer.events).foldl applyEvent (content name) =
      answer.result content name := by
  have last : eventsAt zone name [⟨.setSoa, answer.last⟩] =
      if name = zone then [⟨.setSoa, answer.last⟩] else [] := by
    rw [eventsAt, filter_singleton, concerns_setSoa, answer.zone_lower]
    by_cases here : name = zone
    · simp [here]
    · have other : (zone == name) = false := beq_false_of_ne (Ne.symm here)
      simp [here, other]
  rw [events, cons_append, ← singleton_append, eventsAt_append, eventsAt_pass,
    nil_append, eventsAt_append, foldl_append, foldl_differences, last, result]
  split <;> rfl

/-- Where nothing is deleted, the sequences add to what was there. -/
theorem mem_foldl_apply (differences : List (Difference zone)) (content : Content)
    (kept : ∀ difference ∈ differences, ∀ rr ∈ difference.deleted, rr.key ≠ name) (body : Body) :
    body ∈ differences.foldl (fun content difference => difference.apply content) content name ↔
      body ∈ content name ∨
        ∃ rr ∈ differences.flatMap (·.added), rr.key = name ∧ stated rr = body := by
  induction differences generalizing content with
  | nil => simp
  | cons difference rest ih =>
    have here : body ∈ difference.apply content name ↔
        body ∈ content name ∨ ∃ rr ∈ difference.added, rr.key = name ∧ stated rr = body := by
      have none : (difference.deleted.any fun rr => rr.key == name && stated rr == body) =
          false := by
        rw [any_eq_false]
        intro rr member
        simp [kept difference mem_cons_self rr member]
      rw [Difference.apply, mem_append, mem_filter, none]
      simp [and_assoc]
    rw [foldl_cons, ih _ fun other member => kept other (mem_cons_of_mem _ member), here, or_assoc]
    simp [or_and_right, exists_or]

/-- Where nothing is deleted, the result is what was there, without the old SOA, and what is
added. -/
theorem IxfrAnswer.mem_result (kept : ¬ answer.Deletes name) (body : Body) :
    body ∈ answer.result content name ↔
      (body ∈ content name ∧ (name = zone → body.type ≠ RrType.soa)) ∨
        ∃ rr ∈ answer.additions, rr.key = name ∧ stated rr = body := by
  have folded := mem_foldl_apply name answer.differences content
    (fun difference listed rr member named => kept ⟨difference, listed, rr, member, named⟩) body
  have plain : (∃ rr ∈ answer.differences.flatMap (·.added), rr.key = name ∧ stated rr = body) →
      body.type ≠ RrType.soa := by
    rintro ⟨rr, member, _, rfl⟩
    obtain ⟨difference, _, added⟩ := mem_flatMap.mp member
    exact difference.plainAdded rr added
  have last : (∃ rr ∈ answer.additions, rr.key = name ∧ stated rr = body) ↔
      (∃ rr ∈ answer.differences.flatMap (·.added), rr.key = name ∧ stated rr = body) ∨
        (name = zone ∧ body = stated answer.last) := by
    simp only [additions, mem_append, mem_singleton, or_and_right, exists_or, exists_eq_left,
      answer.lastOwner, eq_comm]
  rw [last, result]
  split
  · rename_i here
    rw [mem_append, mem_filter, folded, mem_singleton, bne_iff_ne, or_and_right,
      and_iff_left_of_imp plain, or_assoc]
    simp only [here, true_and, forall_const]
  · rename_i other
    rw [folded]
    simp [other]

variable {received meant : IxfrAnswer zone}

theorem IxfrAnswer.Means.additions (means : received.Means meant) :
    Forall₂ Record.Means received.additions meant.additions :=
  rel_append (rel_flatMap means.differences fun _ _ one => one.added) (.cons means.last .nil)

/-- Whatever the names in the data are, the same names have deletions. -/
theorem IxfrAnswer.Means.deletes_iff (means : received.Means meant) :
    meant.Deletes name ↔ received.Deletes name := by
  have all : Forall₂ Record.Means (received.differences.flatMap (·.deleted))
      (meant.differences.flatMap (·.deleted)) :=
    rel_flatMap means.differences fun _ _ one => one.deleted
  have flat (answer : IxfrAnswer zone) : answer.Deletes name ↔
      ∃ rr ∈ answer.differences.flatMap (·.deleted), rr.key = name := by
    simp only [Deletes, mem_flatMap]
    tauto
  rw [flat, flat]
  constructor
  · rintro ⟨rr, member, rfl⟩
    obtain ⟨other, listed, one⟩ := Run.exists_of_forall₂ all member
    exact ⟨other, listed, (Record.Means.key_eq one).symm⟩
  · rintro ⟨rr, member, rfl⟩
    obtain ⟨other, listed, one⟩ := Run.exists_of_forall₂ all.flip member
    exact ⟨other, listed, Record.Means.key_eq one⟩

/-- Where nothing is deleted, what is received leads to what is meant exactly if no name in the
data of what is added ends with a pointer. -/
theorem IxfrAnswer.Means.result_iff (means : received.Means meant)
    (clean : ∀ body ∈ content name, body.Written) (kept : ¬ received.Deletes name) :
    (∀ body, body ∈ received.result content name ↔ body ∈ meant.result content name) ↔
      ∀ rr ∈ received.additions, rr.key = name → rr.Written := by
  have outcome := received.mem_result content name kept
  have meaning := meant.mem_result content name fun deletes => kept ((means.deletes_iff name).mp deletes)
  constructor
  · intro same rr member named
    have stored := (same (stated rr)).mp ((outcome _).mpr (Or.inr ⟨rr, member, named, rfl⟩))
    rcases (meaning _).mp stored with ⟨old, _⟩ | ⟨other, listed, _, equal⟩
    · exact (stated_written rr).mp (clean _ old)
    · obtain ⟨_, _, one⟩ := Run.exists_of_forall₂ means.additions listed
      rw [← stated_written, ← equal, stated_written]
      exact Record.Means.written one
  · intro written body
    rw [outcome, meaning]
    refine or_congr_right ?_
    constructor
    · rintro ⟨rr, member, named, same⟩
      obtain ⟨other, listed, one⟩ := Run.exists_of_forall₂ means.additions.flip member
      rw [(Record.Means.eq_iff one).mpr (written rr member named)] at listed
      exact ⟨rr, listed, named, same⟩
    · rintro ⟨other, listed, named, same⟩
      obtain ⟨rr, member, one⟩ := Run.exists_of_forall₂ means.additions listed
      have here : rr.key = name := one.key_eq.symm.trans named
      rw [one.eq_iff.mpr (written rr member here)] at same
      exact ⟨rr, member, here, same⟩

theorem IxfrAnswer.deletes_iff :
    answer.Deletes name ↔ ∃ event ∈ eventsAt zone name answer.events, event.action = .delete := by
  constructor
  · rintro ⟨difference, listed, rr, member, named⟩
    refine ⟨⟨.delete, rr⟩, ?_, rfl⟩
    rw [eventsAt, mem_filter, concerns_delete, beq_iff_eq]
    refine ⟨?_, named⟩
    rw [events, mem_append, mem_cons, mem_flatMap]
    refine Or.inl (Or.inr ⟨difference, listed, ?_⟩)
    rw [Difference.events, mem_append, mem_cons]
    exact Or.inl (Or.inr (mem_map_of_mem member))
  · rintro ⟨⟨action, rr⟩, member, rfl⟩
    rw [eventsAt, mem_filter, concerns_delete, beq_iff_eq] at member
    obtain ⟨listed, named⟩ := member
    simp only [events, Difference.events, mem_append, mem_cons, mem_flatMap,
      mem_map, not_mem_nil, or_false, Event.mk.injEq, reduceCtorEq, false_and, and_false,
      exists_false, true_and, exists_eq_right, false_or] at listed
    obtain ⟨difference, inAnswer, deleted⟩ := listed
    exact ⟨difference, inAnswer, rr, deleted, named⟩

end Sequence

section Tracking

variable (recordSorter : Sorter recordLess) (indexSorter : Sorter indexLess)
variable (db : Db Entry)

/-- Only the SOA of the zone is handed over as a SOA. -/
def Proper (event : Event) : Prop :=
  (event.action = .add → event.rr.type ≠ RrType.soa) ∧
    (event.action = .setSoa → event.rr.type = RrType.soa)

/-- Something was deleted at the name, and `save` will notice. -/
structure Erased (events : List Event) (merge : ZoneMerge) : Prop where
  deleted : ∃ event ∈ events, event.action = .delete
  noticed : merge.needNewBuilder = true ∨ merge.deleted ≠ []

/-- Nothing was deleted, and the builder and the records that wait hold what the
records applied in turn lead to. -/
structure Grown (start : List Body) (events : List Event) (merge : ZoneMerge) : Prop where
  kept : ∀ event ∈ events, event.action ≠ .delete
  need : merge.needNewBuilder = false
  deleted : merge.deleted = []
  plain : ∀ rr ∈ merge.added, rr.type ≠ RrType.soa
  single : (merge.sb.rrs.filter (·.type == RrType.soa)).length ≤ 1
  same : ∀ body, body ∈ merge.bodies.map sanitized ↔ body ∈ events.foldl applyEvent start

def Tracked (key : Name) (events : List Event) (merge : ZoneMerge) : Prop :=
  (∀ event ∈ events, Proper event) →
    Erased events merge ∨ Grown (contentOf db key) events merge

variable {key : Name} {merge next : ZoneMerge} {events : List Event}

/-- The changes begin with the entry that is stored. -/
theorem grown_start (started : ZoneMerger.start (lookup db {}) true key = .ok merge) :
    Grown (contentOf db key) [] merge := by
  rw [ZoneMerger.start, if_pos rfl] at started
  have looked : lookup db {} key = storedAt db key := rfl
  rw [looked] at started
  rw [contentOf]
  cases found : storedAt db key with
  | none =>
    rw [found] at started
    cases started
    exact ⟨nofun, rfl, rfl, nofun, Nat.zero_le 1, fun body => Iff.rfl⟩
  | some entry =>
    rw [found] at started
    obtain ⟨stored, builder, bodies, added, deleted, need, soas⟩ := ZoneMerge.addRrs_eq_ok _ started
    refine ⟨nofun, need, deleted, ?_, ?_, ?_⟩
    · rw [added]
      exact nofun
    · rw [builder]
      exact (soas rfl).1
    · intro body
      have same : merge.bodies.map sanitized = entry.bodies.map sanitized := by
        rw [ZoneMerge.bodies, builder, added, map_nil, append_nil]
        simp only [nil_append]
        rw [bodies, Entry.bodies, map_map, map_map, map_map]
        apply map_congr_left
        intro rr _
        exact sanitized_sanitized rr.toBody
      rw [same, foldl_nil]

/-- Replacing the SOA replaces the only one. -/
theorem grown_replaceSoa {start : List Body} {soa : Record} (isSoa : soa.type = RrType.soa)
    (grown : Grown start events merge) (replaced : merge.replaceSoa soa = .ok next) :
    Grown start (events ++ [⟨.setSoa, soa⟩]) next := by
  rw [replaceSoa, bind_eq_ok] at replaced
  obtain ⟨sb, inBuilder, same⟩ := replaced
  cases same
  rw [StorageBuilder.replaceSoa, bind_eq_ok] at inBuilder
  obtain ⟨rrs, inRrs, same⟩ := inBuilder
  cases same
  obtain ⟨before, old, new, after, split, rfl, plainBefore, oldSoa, newBody, _⟩ :=
    StorageBuilder.replaceFirstSoa_eq_ok inRrs
  have newSoa : new.type = RrType.soa := by rw [newBody]
  have newStated : sanitized new.toBody = stated soa := by
    rw [newBody, ← isSoa]
    rfl
  have single := grown.single
  have noneBefore : before.filter (·.type == RrType.soa) = [] := by
    rw [filter_eq_nil_iff]
    intro rr member
    rw [beq_iff_eq]
    exact plainBefore rr member
  have noneAfter : after.filter (·.type == RrType.soa) = [] := by
    rw [split, filter_append, noneBefore, filter_cons, if_pos (beq_iff_eq.mpr oldSoa),
      nil_append, length_cons] at single
    exact length_eq_zero_iff.mp (by omega)
  refine ⟨?_, grown.need, grown.deleted, grown.plain, ?_, ?_⟩
  · intro event member
    rcases mem_append.mp member with early | last
    · exact grown.kept event early
    · rw [mem_singleton.mp last]
      exact nofun
  · rw [filter_append, noneBefore, filter_cons, if_pos (beq_iff_eq.mpr newSoa), noneAfter]
    exact Nat.le_refl 1
  · intro body
    have plainOf (rrs : List StoredRr) (none : rrs.filter (·.type == RrType.soa) = []) :
        body ∈ (rrs.map (·.toBody)).map sanitized → body.type ≠ RrType.soa := by
      rw [map_map]
      intro member
      obtain ⟨rr, listed, rfl⟩ := mem_map.mp member
      rw [filter_eq_nil_iff] at none
      exact fun soa => none rr listed (beq_iff_eq.mpr soa)
    have addedPlain : body ∈ (merge.added.map (·.toBody)).map sanitized →
        body.type ≠ RrType.soa := by
      rw [map_map]
      intro member
      obtain ⟨rr, listed, rfl⟩ := mem_map.mp member
      exact grown.plain rr listed
    have oldIs : body = sanitized old.toBody → body.type = RrType.soa := by
      rintro rfl
      exact oldSoa
    have outcome := grown.same body
    rw [ZoneMerge.bodies, split] at outcome
    rw [foldl_append, foldl_cons, foldl_nil, applyEvent, ZoneMerge.bodies]
    simp only [map_append, map_cons, mem_append, mem_cons, newStated,
      mem_filter, ← outcome, bne_iff_ne, not_mem_nil, or_false]
    tauto

/-- Step: a record. -/
theorem tracked_event {event : Event} (tracked : Tracked db key events merge)
    (going : event.action ≠ .restart) (acted : act true event.action event.rr merge = .ok next) :
    Tracked db key (events ++ [event]) next := by
  intro proper
  have here := proper event (mem_append_right _ mem_cons_self)
  obtain ⟨action, rr⟩ := event
  have before := tracked fun other member => proper other (mem_append_left _ member)
  have still (erased : Erased events merge) (noticed : next.needNewBuilder = true ∨
      next.deleted ≠ []) : Erased (events ++ [⟨action, rr⟩]) next := by
    obtain ⟨other, member, deletes⟩ := erased.deleted
    exact ⟨⟨other, mem_append_left _ member, deletes⟩, noticed⟩
  cases action with
  | restart => exact absurd rfl going
  | delete =>
    cases acted
    refine Or.inl ⟨⟨⟨.delete, rr⟩, by simp, rfl⟩, Or.inr ?_⟩
    simp [addDeleted]
  | pass =>
    cases acted
    rcases before with erased | grown
    · exact Or.inl (still erased erased.noticed)
    · refine Or.inr ⟨?_, grown.need, grown.deleted, grown.plain, grown.single, ?_⟩
      · intro other member
        rcases mem_append.mp member with early | last
        · exact grown.kept other early
        · rw [mem_singleton.mp last]
          exact nofun
      · rw [foldl_append]
        exact grown.same
  | add =>
    cases acted
    rcases before with erased | grown
    · exact Or.inl (still erased erased.noticed)
    · refine Or.inr ⟨?_, grown.need, grown.deleted, ?_, grown.single, ?_⟩
      · intro other member
        rcases mem_append.mp member with early | last
        · exact grown.kept other early
        · rw [mem_singleton.mp last]
          exact nofun
      · intro other member
        rcases mem_append.mp member with early | last
        · exact grown.plain other early
        · rw [mem_singleton.mp last]
          exact here.1 rfl
      · intro body
        rw [foldl_append, foldl_cons, foldl_nil, applyEvent, mem_append, ← grown.same body]
        simp [ZoneMerge.bodies, addAdded, stated, or_assoc]
  | setSoa =>
    have replaced : merge.replaceSoa rr = .ok next := acted
    rcases before with erased | grown
    · refine Or.inl (still erased ?_)
      rw [replaceSoa, bind_eq_ok] at replaced
      obtain ⟨_, _, same⟩ := replaced
      cases same
      exact erased.noticed
    · exact Or.inr (grown_replaceSoa (here.2 rfl) grown replaced)

/-- Step: a merge. -/
theorem tracked_merge (tracked : Tracked db key events merge)
    (merged : merge.merge recordSorter = .ok next) :
    Tracked db key events next := by
  intro proper
  obtain ⟨⟨noAdded, noDeleted⟩, need, kept, stored, builder, bodies, ⟨order, perm, sub⟩, dropped⟩ :=
    merge_eq_ok merge merged
  rcases tracked proper with erased | grown
  · refine Or.inl ⟨erased.deleted, Or.inl ?_⟩
    rw [need]
    rcases erased.noticed with noticed | some
    · rw [noticed]
      rfl
    · simp [some]
  · have fromAdded : ∀ rr ∈ kept, rr ∈ merge.added := fun rr member =>
      perm.mem_iff.mp (sub.subset member)
    refine Or.inr ⟨grown.kept, ?_, noDeleted, ?_, ?_, ?_⟩
    · rw [need, grown.need, grown.deleted]
      rfl
    · simp [noAdded]
    · have plainStored : stored.filter (·.type == RrType.soa) = [] := by
        rw [filter_eq_nil_iff]
        intro rr member isSoa
        have listed : rr.toBody ∈ stored.map (·.toBody) := mem_map_of_mem member
        rw [bodies] at listed
        obtain ⟨added, inKept, same⟩ := mem_map.mp listed
        have sameType : added.type = rr.type := by
          rw [← same]
          rfl
        exact grown.plain added (fromAdded added inKept) (sameType.trans (beq_iff_eq.mp isSoa))
      rw [builder]
      rw [filter_append, plainStored, append_nil]
      exact grown.single
    · intro body
      rw [← grown.same body, ZoneMerge.bodies, ZoneMerge.bodies, builder, noAdded, map_nil,
        append_nil, map_append, bodies]
      simp only [map_append, map_map, mem_append]
      refine or_congr_right' fun absent => ?_
      constructor
      · intro member
        obtain ⟨rr, listed, rfl⟩ := mem_map.mp member
        exact mem_map.mpr ⟨rr, fromAdded rr listed, (sanitized_sanitized rr.toBody).symm⟩
      · intro member
        obtain ⟨rr, listed, rfl⟩ := mem_map.mp member
        rcases dropped rr listed with inKept | ⟨other, inBuilder, same⟩
        · exact mem_map.mpr ⟨rr, inKept, sanitized_sanitized rr.toBody⟩
        · refine absurd (mem_map.mpr ⟨other, inBuilder, ?_⟩) absent
          rw [Function.comp_apply, same]
          rfl

theorem tracked_preserved : Preserved recordSorter db {} true (Tracked db) where
  fresh := by
    intro key merge started _
    exact Or.inr (grown_start db started)
  event := by
    intro key events event merge next tracked going acted
    exact tracked_event db tracked going acted
  merge := by
    intro key events merge next tracked merged
    exact tracked_merge recordSorter db tracked merged

variable {zone : Name}

theorem IxfrAnswer.proper (answer : IxfrAnswer zone) (event : Event)
    (member : event ∈ answer.events) : Proper event ∧ event.action ≠ .restart := by
  simp only [events, Difference.events, mem_append, mem_cons, mem_flatMap,
    mem_map, not_mem_nil, or_false] at member
  rcases member with (rfl | ⟨difference, _, (rfl | ⟨rr, _, rfl⟩) | rfl | ⟨rr, added, rfl⟩⟩) | rfl
  · exact ⟨⟨nofun, nofun⟩, nofun⟩
  · exact ⟨⟨nofun, nofun⟩, nofun⟩
  · exact ⟨⟨nofun, nofun⟩, nofun⟩
  · exact ⟨⟨nofun, nofun⟩, nofun⟩
  · exact ⟨⟨fun _ => difference.plainAdded rr added, nofun⟩, nofun⟩
  · exact ⟨⟨nofun, fun _ => answer.lastSoa⟩, nofun⟩

/-- What a committed answer has left at a name: nothing if a sequence deletes
there, and otherwise the result of the sequences. -/
theorem handleIxfrPayloads_at (answer : IxfrAnswer zone) (trxId mySerial : Nat)
    (incremental : mySerial ≠ 0) {replies : List (List Record)}
    (split : replies.flatten = answer.records) (committed : Db Entry)
    (commits : handleIxfrPayloads recordSorter indexSorter db zone trxId {} mySerial replies =
      .ok committed) (name : Name) :
    (answer.Deletes name ∧ contentOf committed name = []) ∨
      (¬ answer.Deletes name ∧
        ∀ body, body ∈ contentOf committed name ↔ body ∈ answer.result (contentOf db) name) := by
  have isIxfr : (mySerial != 0) = true := bne_iff_ne.mpr incremental
  obtain ⟨final, judged⟩ := answer.judged
  rw [← split, ← isIxfr] at judged
  have preserved := tracked_preserved recordSorter db
  rw [← isIxfr] at preserved
  rw [answer.deletes_iff, ← answer.foldl_events]
  rcases handleIxfrPayloads_eq_ok trxId mySerial
    committed final answer.events preserved judged
    (fun event member => (answer.proper event member).2) commits name with
    ⟨none, same⟩ | ⟨merge, tracked, ⟨noAdded, noDeleted⟩, _, saved⟩
  · have kept : contentOf committed name = contentOf db name := by
      rw [contentOf, contentOf, storedAt, same]
      rfl
    rw [none, kept]
    refine Or.inr ⟨?_, fun body => Iff.rfl⟩
    rintro ⟨_, member, _⟩
    cases member
  · have outcome := save_eq_ok merge saved
    rcases tracked fun event member => (answer.proper event (mem_of_mem_filter member)).1 with
      erased | grown
    · refine Or.inl ⟨erased.deleted, ?_⟩
      have need : merge.needNewBuilder = true :=
        erased.noticed.resolve_right fun some => some noDeleted
      rcases outcome with ⟨_, gone⟩ | ⟨notNeeded, _⟩
      · rw [contentOf, storedAt, gone]
      · cases need.symm.trans notNeeded
    · refine Or.inr ⟨?_, ?_⟩
      · rintro ⟨event, member, deletes⟩
        exact grown.kept event member deletes
      · intro body
        rw [← grown.same body, ZoneMerge.bodies, noAdded, map_nil, append_nil]
        rcases outcome with ⟨needed, _⟩ | ⟨_, ⟨empty, gone⟩ | ⟨entry, stored, _, perm⟩⟩
        · cases grown.need.symm.trans needed
        · rw [contentOf, storedAt, gone, empty]
          rfl
        · rw [contentOf, storedAt, stored]
          exact ((perm.map _).map sanitized).mem_iff

/-- A committed answer leaves the result of its sequences, applied one after the other, exactly
under two conditions: they leave nothing at each name where one of them deletes, and no name in
the data of a record that is added at another name ends with a pointer. -/
theorem ixfr_sequential_iff_nothing_left_where_deleted (received meant : IxfrAnswer zone)
    (means : received.Means meant) (trxId mySerial : Nat) (incremental : mySerial ≠ 0)
    (replies : List (List Record)) (split : replies.flatten = received.records)
    (clean : ∀ name, ∀ body ∈ contentOf db name, body.Written) (committed : Db Entry)
    (commits : handleIxfrPayloads recordSorter indexSorter db zone trxId {} mySerial replies =
      .ok committed) :
    (contentOf committed).Agrees (meant.result (contentOf db)) ↔
      (∀ name, meant.Deletes name → meant.result (contentOf db) name = []) ∧
        ∀ rr ∈ received.additions, ¬ received.Deletes rr.key → rr.Written := by
  have outcome := handleIxfrPayloads_at recordSorter indexSorter db received trxId mySerial
    incremental split committed commits
  have exact (name : Name) (kept : ¬ received.Deletes name) :=
    means.result_iff (contentOf db) name (clean name) kept
  constructor
  · intro agrees
    refine ⟨fun name deletes => ?_, fun rr member kept => ?_⟩
    · rcases outcome name with ⟨_, nothing⟩ | ⟨kept, _⟩
      · rw [eq_nil_iff_forall_not_mem]
        intro body member
        have stored := (agrees name body).mpr member
        rw [nothing] at stored
        cases stored
      · exact absurd ((means.deletes_iff name).mp deletes) kept
    · rcases outcome rr.key with ⟨deletes, _⟩ | ⟨_, same⟩
      · exact absurd deletes kept
      · exact (exact rr.key kept).mp (fun body => (same body).symm.trans (agrees rr.key body)) rr
          member rfl
  · rintro ⟨nothingLeft, written⟩ name body
    rcases outcome name with ⟨deletes, nothing⟩ | ⟨kept, same⟩
    · rw [nothing, nothingLeft name ((means.deletes_iff name).mpr deletes)]
    · rw [same body]
      exact (exact name kept).mpr (fun rr member named => written rr member (named ▸ kept)) body

/-- A slave of the zone `a` at serial 1, with one address of `b.a`. -/
def slaveOfA : Db Entry where
  families := fun category =>
    if category = .entry then
      ((∅ : ColumnFamily Entry).insert (RealKey.ofName [0x61]) ⟨none, 0,
          [StorageBuilder.newRr [0x61] false RrType.soa 300 (soaOfA 1).rdata]⟩).insert
        (RealKey.ofName [0x62, 0x2E, 0x61])
        ⟨none, 0, [StorageBuilder.newRr [0x62, 0x2E, 0x61] false RrType.a 300 (addressOfB 1).rdata]⟩
    else ∅
  trxlog := ∅

/-- What the slave has is written out. -/
theorem slaveOfA_clean (name : Name) : ∀ body ∈ contentOf slaveOfA name, body.Written := by
  intro body member
  simp only [contentOf, storedAt, slaveOfA, if_true, Std.ExtTreeMap.getElem?_insert] at member
  split at member
  · rename_i found
    split at found
    · cases found
      rw [mem_singleton.mp member]
      decide +kernel
    · split at found
      · cases found
        rw [mem_singleton.mp member]
        decide +kernel
      · simp at found
  · cases member

/-- One sequence for the zone `a`. -/
def differenceOfA (old new : Nat) (deleted added : List Record) (rises : old < new)
    (oldHas : soaSerial (soaOfA old).toBody = .ok old)
    (newHas : soaSerial (soaOfA new).toBody = .ok new)
    (plainDeleted : ∀ rr ∈ deleted, rr.type ≠ RrType.soa)
    (plainAdded : ∀ rr ∈ added, rr.type ≠ RrType.soa) : Difference [0x61] where
  oldSoa := soaOfA old
  deleted := deleted
  newSoa := soaOfA new
  added := added
  oldSerial := old
  newSerial := new
  oldIsSoa := rfl
  oldOwner := rfl
  oldHas := oldHas
  newIsSoa := rfl
  newOwner := rfl
  newHas := newHas
  rises := rises
  plainDeleted := plainDeleted
  plainAdded := plainAdded

/-- An answer for the zone `a`. -/
def answerOfA (serial : Nat) (differences : List (Difference [0x61]))
    (has : soaSerial (soaOfA serial).toBody = .ok serial)
    (bounded : ∀ difference ∈ differences, difference.newSerial ≤ serial) : IxfrAnswer [0x61] where
  first := soaOfA serial
  differences := differences
  last := soaOfA serial
  serial := serial
  firstSoa := rfl
  firstOwner := rfl
  firstSerial := has
  lastSoa := rfl
  lastOwner := rfl
  lastSerial := has
  bounded := bounded

/-- The first sequence gives `b.a` another address, the second one takes away all addresses, with
one that was never there, and gives the zone a name server. -/
def serverForAddresses : IxfrAnswer [0x61] :=
  answerOfA 3 [differenceOfA 1 2 [] [addressOfB 2] (by decide) soaOfA_one (by decide) plain_nil
      (by decide),
    differenceOfA 2 3 [addressOfB 1, addressOfB 2, addressOfB 3] [serverOfA] (by decide)
      (by decide) (by decide) (by decide) (by decide)] (by decide) (by decide)

/-- An address is deleted. -/
def withoutAddress : IxfrAnswer [0x61] :=
  answerOfA 2 [differenceOfA 1 2 [addressOfB 2] [] (by decide) soaOfA_one (by decide) (by decide)
    plain_nil] (by decide) (by decide)

/-- An address that one sequence adds and a later one deletes is absent at the end. -/
theorem two_sequences_applied :
    ∃ committed, handleIxfrPayloads insertionRecords insertionIndex slaveOfA [0x61] 0 {} 1
        [[soaOfA 3, soaOfA 1, soaOfA 2, addressOfB 2, soaOfA 2],
          [addressOfB 1, addressOfB 2, addressOfB 3, soaOfA 3, serverOfA, soaOfA 3]] =
          .ok committed ∧
      (contentOf committed).Agrees (serverForAddresses.result (contentOf slaveOfA)) := by
  obtain ⟨committed, commits⟩ := (isOk_iff (handleIxfrPayloads insertionRecords insertionIndex
    slaveOfA [0x61] 0 {} 1 [[soaOfA 3, soaOfA 1, soaOfA 2, addressOfB 2, soaOfA 2],
      [addressOfB 1, addressOfB 2, addressOfB 3, soaOfA 3, serverOfA, soaOfA 3]])).mp
    (by decide +kernel)
  refine ⟨committed, commits, ?_⟩
  have written : ∀ rr ∈ serverForAddresses.additions, rr.Written := by decide +kernel
  have deletedWritten : ∀ difference ∈ serverForAddresses.differences,
      ∀ rr ∈ difference.deleted, rr.Written := by decide +kernel
  have means : serverForAddresses.Means serverForAddresses := by
    refine ⟨forall₂_same.mpr fun difference listed => ⟨?_, ?_⟩, Record.means_self
      (written _ (mem_append_right _ (mem_singleton_self _)))⟩
    · exact forall₂_same.mpr fun rr member =>
        Record.means_self (deletedWritten difference listed rr member)
    · exact forall₂_same.mpr fun rr member => Record.means_self
        (written rr (mem_append_left _ (mem_flatMap.mpr ⟨difference, listed, member⟩)))
  apply (ixfr_sequential_iff_nothing_left_where_deleted insertionRecords insertionIndex slaveOfA
    serverForAddresses serverForAddresses means 0 1 (by decide) _ rfl slaveOfA_clean committed
    commits).mpr
  refine ⟨?_, fun rr member _ => written rr member⟩
  rintro name ⟨difference, listed, rr, deleted, rfl⟩
  have named : rr.key = [0x62, 0x2E, 0x61] := by
    revert rr difference
    decide +kernel
  rw [named]
  decide +kernel

/-- Deleting an address the slave does not have takes away the one it has. -/
theorem absent_deletion_erases_name :
    ∃ committed, handleIxfrPayloads insertionRecords insertionIndex slaveOfA [0x61] 0 {} 1
        [[soaOfA 2, soaOfA 1, addressOfB 2, soaOfA 2, soaOfA 2]] = .ok committed ∧
      ¬ (contentOf committed).Agrees (withoutAddress.result (contentOf slaveOfA)) := by
  obtain ⟨committed, commits⟩ := (isOk_iff (handleIxfrPayloads insertionRecords insertionIndex
    slaveOfA [0x61] 0 {} 1 [[soaOfA 2, soaOfA 1, addressOfB 2, soaOfA 2, soaOfA 2]])).mp
    (by decide +kernel)
  refine ⟨committed, commits, ?_⟩
  intro agrees
  have kept := (agrees [0x62, 0x2E, 0x61] (stated (addressOfB 1))).mpr (by decide +kernel)
  rcases handleIxfrPayloads_at insertionRecords insertionIndex slaveOfA withoutAddress 0 1
    (by decide) rfl committed commits [0x62, 0x2E, 0x61] with ⟨_, nothing⟩ | ⟨keeps, _⟩
  · rw [nothing] at kept
    cases kept
  · exact keeps ⟨_, mem_singleton_self _, addressOfB 2, mem_singleton_self _, by decide⟩

end Tracking

end Nsblast.Slave
