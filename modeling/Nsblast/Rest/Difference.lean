import Nsblast.Library.Program
import Nsblast.Storage.Soa
import Nsblast.Store.Transaction

/-!
# The difference of a change

`addDiff` stores, under the name of the zone and its new serial, what a change has
deleted and what it has added: the old SOA, the deleted records, the new SOA, the
added records. Both lists are computed by sorting the old and the new records of
the name by their bytes and walking them.

A record may be in both lists, when its name is written out in one entry and is a
pointer in the other. What both lists leave out is the same records.
-/

namespace Nsblast

open StorageBuilder List Program

/-- A category and a key in it. -/
abbrev Address := Category × Key

/-- The part of a request that works on its transaction. -/
abbrev Trx (α : Type) := Program Address Entry α

/-- Where the entry of a name is. -/
def entryAt (name : Name) : Address := (.entry, RealKey.ofName name)

/-- Where the difference that leads to a serial is. -/
def diffAt (zone : Name) (serial : Nat) : Address := (.diff, RealKey.init zone .diff (some serial))

/-- A record and the bytes it is compared by. -/
abbrev Item := List UInt8 × StoredRr

/-- `compare_rr`. -/
abbrev itemLess (left right : Item) : Bool := compare left.1 right.1 == .lt

/-- `std::sort` as insertion sort, to run the model. -/
def insertionItems : Sorter itemLess := Sorter.byKey compare Prod.fst

/-- The records of an entry, or of none. -/
def itemsOf (content : Option Entry) : List Item :=
  match content with
  | none => []
  | some entry => entry.rrs.map fun rr => (rr.selfSpan (firstName entry.tenantId), rr)

/-- The records of the first content that the second one has not. -/
def missingIn (sorter : Sorter itemLess) (content other : Option Entry) : List StoredRr :=
  (setDifference itemLess (sorter.sort (itemsOf content)) (sorter.sort (itemsOf other))).map
    Prod.snd

/-- `add_rrs`. -/
def addRrs : List StoredRr → StorageBuilder → Run StorageBuilder
  | [], sb => .ok sb
  | rr :: rest, sb =>
      if rr.type = RrType.soa then addRrs rest sb
      else do
        let next ← sb.addRr rr.toRecord
        addRrs rest next

/-- `createDiffSequence`. -/
def createDiffSequence (sorter : Sorter itemLess) (oldSoa newSoa : StoredRr)
    (oldContent newContent : Option Entry) (sb : StorageBuilder) : Run StorageBuilder := do
  let sb ← sb.addRr oldSoa.toRecord
  let sb ← addRrs (missingIn sorter oldContent newContent) sb
  let sb ← sb.addRr newSoa.toRecord
  addRrs (missingIn sorter newContent oldContent) sb

/-- The builder of a difference. -/
def diffBuilder : StorageBuilder := { sort := false, oneSoa := false }

/-- `addDiff`. A difference that is already there is overwritten. -/
def addDiff (items : Sorter itemLess) (index : Sorter indexLess) (zoneName : Name)
    (oldSoa newSoa : StoredRr) (oldContent newContent : Option Entry) : Trx Unit := do
  let oldSerial ← .done (soaSerial oldSoa.toBody)
  let newSerial ← .done (soaSerial newSoa.toBody)
  .done (Run.assert (oldSerial < newSerial))
  let sb ← .done (createDiffSequence items oldSoa newSoa oldContent newContent diffBuilder)
  let diff ← .done (sb.finish index)
  let _ ← .read (diffAt zoneName newSerial)
  .write (diffAt zoneName newSerial) (some diff)

/-- A stored difference, taken apart. -/
structure Difference where
  old : StoredRr
  deleted : List StoredRr
  new : StoredRr
  added : List StoredRr

namespace Difference

/-- The records of the difference in the order they are stored. -/
def rrs (difference : Difference) : List StoredRr :=
  difference.old :: difference.deleted ++ difference.new :: difference.added

/-- The SOAs lead to the two lists, which have none themselves. -/
structure Proper (difference : Difference) (oldSerial newSerial : Nat) : Prop where
  oldSoa : difference.old.type = RrType.soa
  newSoa : difference.new.type = RrType.soa
  oldSerial : soaSerial difference.old.toBody = .ok oldSerial
  newSerial : soaSerial difference.new.toBody = .ok newSerial
  deleted : ∀ rr ∈ difference.deleted, rr.type ≠ RrType.soa
  added : ∀ rr ∈ difference.added, rr.type ≠ RrType.soa

end Difference

/-- What a record says, and about which name. -/
def StoredRr.fact (rr : StoredRr) : Name × Body := (rr.key, rr.toBody)

/-- What the records other than SOAs say. -/
def plainFacts (rrs : List StoredRr) : List (Name × Body) :=
  (rrs.map StoredRr.fact).filter fun fact => fact.2.type ≠ RrType.soa

@[simp] theorem plainFacts_append (first second : List StoredRr) :
    plainFacts (first ++ second) = plainFacts first ++ plainFacts second := by
  rw [plainFacts, map_append, filter_append]
  rfl

theorem plainFacts_cons (rr : StoredRr) (rest : List StoredRr) :
    plainFacts (rr :: rest) =
      if rr.type = RrType.soa then plainFacts rest else rr.fact :: plainFacts rest := by
  split
  · rename_i isSoa
    exact filter_cons_of_neg fun kept => of_decide_eq_true kept isSoa
  · rename_i other
    exact filter_cons_of_pos (decide_eq_true other)

/-- The records of an entry, or of none. -/
def recordsOf (content : Option Entry) : List StoredRr := content.elim [] Entry.rrs

/-- The records have the name, which could be written. -/
def NamesWritten (name : Name) (content : Option Entry) : Prop :=
  ∀ rr ∈ recordsOf content, rr.key = name ∧ Name.Writable rr.owner

theorem namesWritten_of_stored {name : Name} {content : Option Entry}
    (stored : ∀ entry ∈ content, Stored name entry) : NamesWritten name content := by
  intro rr member
  cases content with
  | none => cases member
  | some entry => exact ⟨(stored entry rfl).owners rr member, (stored entry rfl).writable rr member⟩

section missingIn

variable (sorter : Sorter itemLess) (name : Name) {oldContent newContent : Option Entry}

theorem itemLess_asymmetric (left right : Item) (less : itemLess left right = true) :
    itemLess right left = false := by
  rw [itemLess, beq_iff_eq] at less
  rw [itemLess, beq_eq_false_iff_ne, Std.OrientedCmp.gt_of_lt less]
  exact nofun

theorem map_snd_itemsOf (content : Option Entry) :
    (itemsOf content).map Prod.snd = recordsOf content := by
  cases content with
  | none => rfl
  | some entry =>
    rw [itemsOf, map_map]
    exact map_id _

/-- Items of one name that compare as equal say the same. -/
theorem fact_of_items (old : NamesWritten name oldContent) (new : NamesWritten name newContent)
    {left right : Item}
    (inOld : left ∈ itemsOf oldContent) (inNew : right ∈ itemsOf newContent)
    (equal : itemLess left right = false ∧ itemLess right left = false) :
    left.2.fact = right.2.fact := by
  have near (tenantId : Option Uuid) : firstName tenantId < 256 := by
    rw [firstName, bufferHeaderLen]
    split <;> omega
  cases oldContent with
  | none => cases inOld
  | some oldEntry =>
    cases newContent with
    | none => cases inNew
    | some newEntry =>
      obtain ⟨leftRr, leftMember, rfl⟩ := mem_map.mp inOld
      obtain ⟨rightRr, rightMember, rfl⟩ := mem_map.mp inNew
      obtain ⟨leftKey, leftWritten⟩ := old leftRr leftMember
      obtain ⟨rightKey, rightWritten⟩ := new rightRr rightMember
      have sameKey : leftRr.key = rightRr.key := leftKey.trans rightKey.symm
      have sameSpan : leftRr.selfSpan (firstName oldEntry.tenantId) =
          rightRr.selfSpan (firstName newEntry.tenantId) := by
        rw [itemLess, itemLess, beq_eq_false_iff_ne, beq_eq_false_iff_ne] at equal
        cases order : compare (leftRr.selfSpan (firstName oldEntry.tenantId))
            (rightRr.selfSpan (firstName newEntry.tenantId)) with
        | lt => exact absurd order equal.1
        | eq => exact Std.LawfulEqCmp.eq_of_compare order
        | gt => exact absurd (Std.OrientedCmp.lt_of_gt order) equal.2
      have sameBody := StoredRr.body_of_selfSpan (near _) (near _) sameKey leftWritten rightWritten
        sameSpan
      rw [StoredRr.fact, StoredRr.fact, sameKey, sameBody]

/-- What the two differences of two entries of one name leave out says the same. -/
theorem missingIn_pairs (old : NamesWritten name oldContent) (new : NamesWritten name newContent) :
    ∃ kept, (plainFacts (recordsOf oldContent)).Perm
        (plainFacts (missingIn sorter oldContent newContent) ++ kept) ∧
      (plainFacts (recordsOf newContent)).Perm
        (plainFacts (missingIn sorter newContent oldContent) ++ kept) := by
  obtain ⟨left, right, leftPerm, rightPerm, pairs⟩ := setDifference_pairs itemLess
    itemLess_asymmetric (sorter.sort (itemsOf oldContent)) (sorter.sort (itemsOf newContent))
  have leftItems : ∀ x ∈ left, x ∈ itemsOf oldContent := by
    intro x member
    rw [← sorter.mem_sort, leftPerm.mem_iff]
    exact mem_append_right _ member
  have rightItems : ∀ y ∈ right, y ∈ itemsOf newContent := by
    intro y member
    rw [← sorter.mem_sort, rightPerm.mem_iff]
    exact mem_append_right _ member
  have sameFacts := map_eq_of_pairs (fun item : Item => item.2.fact) pairs
    fun x inLeft y inRight => fact_of_items name old new (leftItems x inLeft) (rightItems y inRight)
  have permuted (content other : Option Entry) (rest : List Item)
      (perm : (sorter.sort (itemsOf content)).Perm (setDifference itemLess
        (sorter.sort (itemsOf content)) (sorter.sort (itemsOf other)) ++ rest)) :
      (plainFacts (recordsOf content)).Perm (plainFacts (missingIn sorter content other) ++
        (rest.map fun item => item.2.fact).filter fun fact => fact.2.type ≠ RrType.soa) := by
    rw [plainFacts, plainFacts, ← filter_append, ← map_snd_itemsOf, missingIn, map_map,
      map_map]
    apply List.Perm.filter
    have mapped := ((sorter.perm (itemsOf content)).symm.trans perm).map
      fun item : Item => item.2.fact
    rw [map_append] at mapped
    exact mapped
  refine ⟨_, permuted oldContent newContent left leftPerm, ?_⟩
  rw [sameFacts]
  exact permuted newContent oldContent right rightPerm

end missingIn

section createDiffSequence

variable {next sb : StorageBuilder} {rr : StoredRr}

/-- A record with a plain name is copied under that name. -/
theorem addRr_copies (plain : rr.owner.getLast? ≠ some 0x2E)
    (added : sb.addRr rr.toRecord = .ok next) :
    ∃ copy, next = sb.adding copy ∧ copy.owner = rr.owner ∧
      copy.toBody = sanitized rr.toBody := by
  obtain ⟨rfl, _, _⟩ := createRr_eq_ok added
  refine ⟨_, rfl, ?_, rfl⟩
  split
  · rename_i shares
    simp only [sharesName, Bool.false_or, Bool.and_eq_true, beq_iff_eq] at shares
    exact shares.2.2
  · exact withoutDot_of_plain plain

/-- A stored record other than a SOA is copied as it is. -/
theorem addRr_fact (plain : rr.owner.getLast? ≠ some 0x2E) (other : rr.type ≠ RrType.soa)
    (added : sb.addRr rr.toRecord = .ok next) :
    ∃ copy, next = sb.adding copy ∧ copy.fact = rr.fact := by
  obtain ⟨copy, rfl, owner, body⟩ := addRr_copies plain added
  obtain ⟨inClass, accepted⟩ := rr.sane.resolve_left other
  refine ⟨copy, rfl, ?_⟩
  rw [StoredRr.fact, StoredRr.fact, Record.key, Record.key, owner, body,
    sanitized_of_sane inClass accepted]

/-- The loop copies the records other than SOAs. -/
theorem addRrs_eq_ok {rrs : List StoredRr} (plain : ∀ rr ∈ rrs, rr.owner.getLast? ≠ some 0x2E)
    (added : addRrs rrs sb = .ok next) :
    ∃ copies, next = { sb with rrs := sb.rrs ++ copies } ∧
      copies.map StoredRr.fact = plainFacts rrs := by
  induction rrs generalizing sb with
  | nil =>
    cases added
    exact ⟨[], by rw [append_nil], rfl⟩
  | cons rr rest ih =>
    have plainRest : ∀ other ∈ rest, other.owner.getLast? ≠ some 0x2E :=
      fun other member => plain other (mem_cons_of_mem rr member)
    rw [addRrs] at added
    split at added
    · rename_i isSoa
      obtain ⟨copies, same, facts⟩ := ih plainRest added
      refine ⟨copies, same, ?_⟩
      rw [facts, plainFacts_cons, if_pos isSoa]
    · rename_i other
      rw [Run.bind_eq_ok] at added
      obtain ⟨middle, one, later⟩ := added
      obtain ⟨copy, rfl, fact⟩ := addRr_fact (plain rr mem_cons_self) other one
      obtain ⟨copies, rfl, facts⟩ := ih plainRest later
      refine ⟨copy :: copies, ?_, ?_⟩
      · rw [adding, append_assoc, singleton_append]
      · rw [map_cons, fact, facts, plainFacts_cons, if_neg other]

theorem addRrs_eq_foldlM (rrs : List StoredRr) (sb : StorageBuilder) :
    addRrs rrs sb = (rrs.filter fun rr => rr.type ≠ RrType.soa).foldlM
      (fun sb rr => sb.addRr rr.toRecord) sb := by
  induction rrs generalizing sb with
  | nil => rfl
  | cons rr rest ih =>
    rw [addRrs]
    split
    · rename_i isSoa
      rw [filter_cons_of_neg (by simpa using isSoa), ih]
    · rename_i other
      rw [filter_cons_of_pos (by simpa using other), foldlM_cons]
      simp only [ih]

/-- What stands in a difference. -/
theorem createDiffSequence_eq_ok {sorter : Sorter itemLess} {oldSoa newSoa : StoredRr}
    {oldContent newContent : Option Entry} (oldPlain : oldSoa.owner.getLast? ≠ some 0x2E)
    (newPlain : newSoa.owner.getLast? ≠ some 0x2E)
    (oldOwners : ∀ rr ∈ recordsOf oldContent, rr.owner.getLast? ≠ some 0x2E)
    (newOwners : ∀ rr ∈ recordsOf newContent, rr.owner.getLast? ≠ some 0x2E)
    (created : createDiffSequence sorter oldSoa newSoa oldContent newContent diffBuilder = .ok sb) :
    ∃ difference : Difference, sb = { diffBuilder with rrs := difference.rrs } ∧
      difference.old.toBody = sanitized oldSoa.toBody ∧
      difference.new.toBody = sanitized newSoa.toBody ∧
      difference.deleted.map StoredRr.fact = plainFacts (missingIn sorter oldContent newContent) ∧
      difference.added.map StoredRr.fact = plainFacts (missingIn sorter newContent oldContent) := by
  have plain (content other : Option Entry)
      (owners : ∀ rr ∈ recordsOf content, rr.owner.getLast? ≠ some 0x2E) :
      ∀ rr ∈ missingIn sorter content other, rr.owner.getLast? ≠ some 0x2E := by
    intro rr member
    obtain ⟨item, inDifference, rfl⟩ := mem_map.mp member
    have inSorted := (setDifference_sublist itemLess _ _).subset inDifference
    apply owners
    rw [← map_snd_itemsOf]
    exact mem_map_of_mem ((sorter.mem_sort _ item).mp inSorted)
  rw [createDiffSequence, Run.bind_eq_ok] at created
  obtain ⟨first, addedOld, created⟩ := created
  rw [Run.bind_eq_ok] at created
  obtain ⟨second, addedDeleted, created⟩ := created
  rw [Run.bind_eq_ok] at created
  obtain ⟨third, addedNew, addedAdded⟩ := created
  obtain ⟨old, rfl, _, oldBody⟩ := addRr_copies oldPlain addedOld
  obtain ⟨deleted, rfl, deletedFacts⟩ := addRrs_eq_ok
    (plain oldContent newContent oldOwners) addedDeleted
  obtain ⟨new, rfl, _, newBody⟩ := addRr_copies newPlain addedNew
  obtain ⟨added, rfl, addedFacts⟩ := addRrs_eq_ok
    (plain newContent oldContent newOwners) addedAdded
  refine ⟨⟨old, deleted, new, added⟩, ?_, oldBody, newBody, deletedFacts, addedFacts⟩
  simp [adding, diffBuilder, Difference.rrs]

end createDiffSequence

/-- The type of a copied SOA and its serial are those of the SOA. -/
theorem soaSerial_of_sanitized {copy : Body} {soa : StoredRr} (body : copy = sanitized soa.toBody) :
    copy.type = soa.type ∧ soaSerial copy = soaSerial soa.toBody := by
  subst body
  exact ⟨rfl, rfl⟩

/-- A record among plain facts is no SOA. -/
theorem type_of_plainFacts (copies rrs : List StoredRr)
    (facts : copies.map StoredRr.fact = plainFacts rrs) (rr : StoredRr) (member : rr ∈ copies) :
    rr.type ≠ RrType.soa := by
  have listed := mem_map_of_mem (f := StoredRr.fact) member
  rw [facts, plainFacts, mem_filter] at listed
  exact of_decide_eq_true listed.2

variable {items : Sorter itemLess} {index : Sorter indexLess} {zoneName name : Name}
  {oldSoa newSoa : StoredRr} {oldContent newContent : Option Entry} {ops : List (Op Address Entry)}
  {value : Unit}

/-- The steps of `addDiff`. -/
theorem addDiff_steps
    (runs : (addDiff items index zoneName oldSoa newSoa oldContent newContent).Runs ops value) :
    ∃ oldSerial newSerial sb diff previous, soaSerial oldSoa.toBody = .ok oldSerial ∧
      soaSerial newSoa.toBody = .ok newSerial ∧ oldSerial < newSerial ∧
      createDiffSequence items oldSoa newSoa oldContent newContent diffBuilder = .ok sb ∧
      sb.finish index = .ok diff ∧
      ops = [.read (diffAt zoneName newSerial) previous,
        .write (diffAt zoneName newSerial) (some diff)] := by
  simp only [addDiff, runs_done_bind] at runs
  obtain ⟨oldSerial, readOld, newSerial, readNew, _, asserted, sb, created, diff, finished,
    runs⟩ := runs
  simp only [runs_bind, runs_read, runs_write] at runs
  obtain ⟨_, _, previous, rfl, rfl, rfl⟩ := runs
  have increases := of_decide_eq_true (Run.assert_eq_ok asserted)
  exact ⟨oldSerial, newSerial, sb, diff, previous, readOld, readNew, increases, created, finished,
    rfl⟩

/-- What `addDiff` has done. -/
theorem addDiff_runs
    (runs : (addDiff items index zoneName oldSoa newSoa oldContent newContent).Runs ops value)
    (oldIsSoa : oldSoa.type = RrType.soa) (newIsSoa : newSoa.type = RrType.soa)
    (oldPlain : oldSoa.owner.getLast? ≠ some 0x2E) (newPlain : newSoa.owner.getLast? ≠ some 0x2E)
    (old : ∀ entry ∈ oldContent, Stored name entry)
    (new : ∀ entry ∈ newContent, Stored name entry) :
    ∃ oldSerial newSerial previous diff, ∃ difference : Difference,
      soaSerial oldSoa.toBody = .ok oldSerial ∧ soaSerial newSoa.toBody = .ok newSerial ∧
      oldSerial < newSerial ∧
      ops = [.read (diffAt zoneName newSerial) previous,
        .write (diffAt zoneName newSerial) (some diff)] ∧
      diff.rrs = difference.rrs ∧ difference.Proper oldSerial newSerial ∧
      ∃ kept, (plainFacts (recordsOf oldContent)).Perm
          (difference.deleted.map StoredRr.fact ++ kept) ∧
        (plainFacts (recordsOf newContent)).Perm (difference.added.map StoredRr.fact ++ kept) := by
  have plainOwners (content : Option Entry) (stored : ∀ entry ∈ content, Stored name entry) :
      ∀ rr ∈ recordsOf content, rr.owner.getLast? ≠ some 0x2E :=
    fun rr member => writeName_plain (namesWritten_of_stored stored rr member).2
  obtain ⟨oldSerial, newSerial, sb, diff, previous, readOld, readNew, increases, created, finished,
    rfl⟩ := addDiff_steps runs
  obtain ⟨difference, rfl, oldBody, newBody, deleted, added⟩ := createDiffSequence_eq_ok oldPlain
    newPlain (plainOwners oldContent old) (plainOwners newContent new) created
  obtain ⟨kept, oldPerm, newPerm⟩ := missingIn_pairs items name (namesWritten_of_stored old)
    (namesWritten_of_stored new)
  obtain ⟨oldType, oldRead⟩ := soaSerial_of_sanitized oldBody
  obtain ⟨newType, newRead⟩ := soaSerial_of_sanitized newBody
  refine ⟨oldSerial, newSerial, previous, diff, difference, readOld, readNew, increases, rfl, ?_,
    ⟨oldType.trans oldIsSoa, newType.trans newIsSoa, oldRead.trans readOld, newRead.trans readNew,
      type_of_plainFacts _ _ deleted, type_of_plainFacts _ _ added⟩, kept, ?_, ?_⟩
  · rw [finish_eq_ok finished]
    rfl
  · rw [deleted]
    exact oldPerm
  · rw [added]
    exact newPerm

end Nsblast
