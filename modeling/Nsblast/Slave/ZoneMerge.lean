import Nsblast.Storage.Builder
import Nsblast.Store.Transaction

/-!
# Merging the records of a zone transfer

`ZoneMerge` collects what a transfer adds and deletes at one name and merges it,
after every reply, into the records of a builder; `ZoneMerger` keeps one for
every name. `existing` holds the places of the records in the builder, as the
code keeps their offsets, so that a SOA replaced in the builder is replaced
wherever it is read.

Erasing takes a deletion to hit every existing record that compares as less. When
something was deleted at a name, `save` reads the remaining records from an empty
buffer, which throws unless there are none.

`std::set_difference` runs on existing records that need not be sorted. It is
taken as the loop that walks both ranges.
-/

namespace Nsblast

open StorageBuilder List

/-- `Compare`. -/
abbrev recordLess (first second : Record) : Bool :=
  compare first.dataSpanAfterLabel second.dataSpanAfterLabel == .lt

/-- `std::sort` as insertion sort, to run the model. -/
def insertionRecords : Sorter recordLess :=
  Sorter.byKey compare fun rr : Record => rr.dataSpanAfterLabel

structure ZoneMerge where
  deleted : List Record := []
  added : List Record := []
  existing : List Nat := []
  sb : StorageBuilder := {}
  needNewBuilder : Bool := false

namespace ZoneMerge

/-- The loop that adds records to the builder and to the existing ones. -/
def addRrs : List Record → ZoneMerge → Run ZoneMerge
  | [], zone => .ok zone
  | rr :: rest, zone => do
      let sb ← zone.sb.addRr rr
      addRrs rest { zone with sb, existing := zone.existing ++ [zone.sb.rrs.length] }

/-- `addExisting`, with what the lookup has found. -/
def addExisting (found : Option Entry) (zone : ZoneMerge) : Run ZoneMerge :=
  match found with
  | some entry => addRrs (entry.rrs.map (·.toRecord)) zone
  | none => .ok zone

def addDeleted (zone : ZoneMerge) (rr : Record) : ZoneMerge :=
  { zone with deleted := zone.deleted ++ [rr] }

def addAdded (zone : ZoneMerge) (rr : Record) : ZoneMerge :=
  { zone with added := zone.added ++ [rr] }

/-- The existing records, read from the builder. -/
def existingRrs (zone : ZoneMerge) : List Record :=
  zone.existing.filterMap fun place => (zone.sb.rrs[place]?).map (·.toRecord)

/-- The first part of `merge`. -/
def eraseDeleted (sorter : Sorter recordLess) (zone : ZoneMerge) : ZoneMerge :=
  if zone.deleted = [] then zone
  else { zone with
    needNewBuilder := true
    existing := zone.existing.filter fun place =>
      match zone.sb.rrs[place]? with
      | some left => !(sorter.sort zone.deleted).any fun right => recordLess left.toRecord right
      | none => true }

/-- `ZoneMerge::merge`. -/
def merge (sorter : Sorter recordLess) (zone : ZoneMerge) : Run ZoneMerge :=
  if zone.added = [] ∧ zone.deleted = [] then .ok zone
  else do
    let add := setDifference recordLess (sorter.sort zone.added)
      (zone.eraseDeleted sorter).existingRrs
    let merged ← addRrs add (zone.eraseDeleted sorter)
    .ok { merged with added := [], deleted := [] }

/-- The data `save` writes; without any, the entry is removed. -/
def save (sorter : Sorter indexLess) (zone : ZoneMerge) : Run (Option Entry) := do
  Run.assert (zone.deleted = [])
  Run.assert (zone.added = [])
  if zone.needNewBuilder then
    if zone.existing = [] then .ok none
    else .thrown "Labels::parse: startOffset needs to be smaller than the buffers size"
  else do
    let entry ← zone.sb.finish sorter
    .ok (if entry.rrs = [] then none else some entry)

def replaceSoa (zone : ZoneMerge) (soa : Record) : Run ZoneMerge := do
  let sb ← zone.sb.replaceSoa soa.toBody
  .ok { zone with sb }

section Specification

variable (zone : ZoneMerge)

/-- What the builder holds and what is still to be merged. -/
def bodies : List Body := zone.sb.rrs.map (·.toBody) ++ zone.added.map (·.toBody)

/-- Nothing waits to be merged. -/
def Merged : Prop := zone.added = [] ∧ zone.deleted = []

variable {rrs : List Record} {next : ZoneMerge}

/-- The loop appends the records with sane class and time to live. With one SOA
allowed, it adds a SOA only where there was none. -/
theorem addRrs_eq_ok (added : addRrs rrs zone = .ok next) :
    ∃ stored : List StoredRr, next.sb = { zone.sb with rrs := zone.sb.rrs ++ stored } ∧
      stored.map (·.toBody) = rrs.map (fun rr => sanitized rr.toBody) ∧
      next.added = zone.added ∧ next.deleted = zone.deleted ∧
      next.needNewBuilder = zone.needNewBuilder ∧
      (zone.sb.oneSoa = true → (stored.filter (·.type == RrType.soa)).length ≤ 1 ∧
        ((∃ rr ∈ zone.sb.rrs, rr.type = RrType.soa) → ∀ rr ∈ stored, rr.type ≠ RrType.soa)) := by
  induction rrs generalizing zone with
  | nil =>
    cases added
    exact ⟨[], by simp⟩
  | cons rr rest ih =>
    rw [addRrs, Run.bind_eq_ok] at added
    obtain ⟨sb, one, later⟩ := added
    obtain ⟨first, rfl, body, single⟩ := addRr_eq_ok one
    obtain ⟨stored, builder, mapped, sameAdded, sameDeleted, sameNeed, soas⟩ := ih _ later
    refine ⟨first :: stored, ?_, ?_, sameAdded, sameDeleted, sameNeed, ?_⟩
    · rw [builder]
      simp [adding]
    · rw [map_cons, map_cons, body, mapped]
    · intro oneSoa
      obtain ⟨few, blocked⟩ := soas oneSoa
      have sameType : first.type = rr.type := by
        rw [body]
        rfl
      by_cases isSoa : rr.type = RrType.soa
      · have none := blocked ⟨first, by simp [adding], sameType.trans isSoa⟩
        have noMore : stored.filter (·.type == RrType.soa) = [] := by
          rw [filter_eq_nil_iff]
          intro other member
          rw [beq_iff_eq]
          exact none other member
        refine ⟨?_, ?_⟩
        · rw [filter_cons, noMore]
          split <;> simp
        · rintro ⟨other, member, otherSoa⟩
          exact absurd otherSoa (single isSoa oneSoa other member)
      · have plain : first.type ≠ RrType.soa := fun soa => isSoa (sameType.symm.trans soa)
        refine ⟨?_, ?_⟩
        · rw [filter_cons, if_neg (by simpa using plain)]
          exact few
        · rintro ⟨other, member, otherSoa⟩ candidate listed
          rcases mem_cons.mp listed with rfl | listed
          · exact plain
          · exact blocked ⟨other, mem_append_left _ member, otherSoa⟩ candidate listed

/-- Every existing record is one of the builder. -/
theorem mem_existingRrs {rr : Record} (member : rr ∈ zone.existingRrs) :
    ∃ stored ∈ zone.sb.rrs, stored.toRecord = rr := by
  rw [existingRrs, mem_filterMap] at member
  obtain ⟨place, _, read⟩ := member
  rw [Option.map_eq_some_iff] at read
  obtain ⟨stored, found, rfl⟩ := read
  exact ⟨stored, mem_of_getElem? found, rfl⟩

@[simp] theorem eraseDeleted_sb (sorter : Sorter recordLess) :
    (zone.eraseDeleted sorter).sb = zone.sb := by
  rw [eraseDeleted]
  split <;> rfl

theorem eraseDeleted_needNewBuilder (sorter : Sorter recordLess) :
    (zone.eraseDeleted sorter).needNewBuilder = (zone.needNewBuilder || !zone.deleted.isEmpty) := by
  rw [eraseDeleted]
  split
  · rename_i none
    rw [none]
    simp
  · rename_i some
    simp [some]

/-- After a merge nothing waits. The builder has grown by those of the added
records that it kept; a dropped one is in the builder already. -/
theorem merge_eq_ok {sorter : Sorter recordLess}
    (merged : zone.merge sorter = .ok next) :
    next.Merged ∧ next.needNewBuilder = (zone.needNewBuilder || !zone.deleted.isEmpty) ∧
      ∃ kept : List Record, ∃ stored : List StoredRr,
        next.sb = { zone.sb with rrs := zone.sb.rrs ++ stored } ∧
        stored.map (·.toBody) = kept.map (fun rr => sanitized rr.toBody) ∧
        (∃ order : List Record, order.Perm zone.added ∧ kept.Sublist order) ∧
        (∀ rr ∈ zone.added, rr ∈ kept ∨ ∃ other ∈ zone.sb.rrs, other.toBody = rr.toBody) := by
  rw [merge] at merged
  split at merged
  · rename_i nothing
    cases merged
    refine ⟨nothing, by rw [nothing.2]; simp, [], [], by simp, rfl, ⟨[], ?_, List.Sublist.refl _⟩,
      ?_⟩
    · rw [nothing.1]
    · intro rr member
      rw [nothing.1] at member
      cases member
  · rw [Run.bind_eq_ok] at merged
    obtain ⟨grown, looped, same⟩ := merged
    cases same
    obtain ⟨stored, builder, mapped, _, _, need, _⟩ := addRrs_eq_ok _ looped
    rw [eraseDeleted_sb] at builder
    refine ⟨⟨rfl, rfl⟩, need.trans (eraseDeleted_needNewBuilder zone sorter), _, stored, builder,
      mapped, ⟨_, sorter.perm zone.added, setDifference_sublist _ _ _⟩, ?_⟩
    intro rr member
    rcases mem_setDifference_or recordLess _ (zone.eraseDeleted sorter).existingRrs
      ((sorter.mem_sort zone.added rr).mpr member) with kept | ⟨other, met, notBefore, notBehind⟩
    · exact Or.inl kept
    · obtain ⟨stored, inBuilder, rfl⟩ := mem_existingRrs _ met
      rw [eraseDeleted_sb] at inBuilder
      exact Or.inr ⟨stored, inBuilder, Body.eq_of_not_less notBehind notBefore⟩

/-- Every record of the builder is an existing one, in the order of the builder. -/
def Whole : Prop := zone.existing = range zone.sb.rrs.length

variable {zone}

theorem Whole.addRrs (whole : zone.Whole)
    (added : addRrs rrs zone = .ok next) : next.Whole := by
  induction rrs generalizing zone with
  | nil =>
    cases added
    exact whole
  | cons rr rest ih =>
    rw [ZoneMerge.addRrs, Run.bind_eq_ok] at added
    obtain ⟨sb, one, later⟩ := added
    obtain ⟨first, rfl, _⟩ := addRr_eq_ok one
    refine ih ?_ later
    rw [Whole, whole]
    simp [adding, range_succ]

theorem Whole.existingRrs (whole : zone.Whole) :
    zone.existingRrs = zone.sb.rrs.map (·.toRecord) := by
  rw [ZoneMerge.existingRrs, whole]
  induction zone.sb.rrs with
  | nil => rfl
  | cons first rest ih =>
    rw [length_cons, range_succ_eq_map, filterMap_cons_some (by rfl), filterMap_map, map_cons, ← ih]
    rfl

/-- A merge without deletions: the builder grows by the added records, sorted, that
`std::set_difference` leaves. -/
theorem merge_whole {sorter : Sorter recordLess}
    (merged : zone.merge sorter = .ok next) (keeps : zone.deleted = []) (whole : zone.Whole) :
    next.Whole ∧ next.sb.rrs.map (·.toBody) = zone.sb.rrs.map (·.toBody) ++
      (setDifference Body.less ((sorter.sort zone.added).map (·.toBody))
        (zone.sb.rrs.map (·.toBody))).map sanitized := by
  rw [merge] at merged
  split at merged
  · rename_i nothing
    cases merged
    have none : sorter.sort zone.added = [] := by
      rw [nothing.1]
      exact (sorter.perm []).eq_nil
    rw [none]
    exact ⟨whole, by simp [setDifference]⟩
  · rw [Run.bind_eq_ok] at merged
    obtain ⟨grown, looped, same⟩ := merged
    cases same
    rw [eraseDeleted, if_pos keeps] at looped
    obtain ⟨stored, builder, mapped, _⟩ := addRrs_eq_ok _ looped
    have grows : grown.Whole := whole.addRrs looped
    refine ⟨grows, ?_⟩
    have subtracted := setDifference_map Body.less (fun rr : Record => rr.toBody)
      (sorter.sort zone.added) zone.existingRrs
    rw [whole.existingRrs, map_map] at subtracted
    have split : grown.sb.rrs.map (·.toBody) = zone.sb.rrs.map (·.toBody) ++
        ((setDifference recordLess (sorter.sort zone.added) zone.existingRrs).map
          (·.toBody)).map sanitized := by
      rw [builder, map_append, mapped, map_map]
      rfl
    rw [whole.existingRrs] at split
    exact split.trans (congrArg (zone.sb.rrs.map (·.toBody) ++ map sanitized ·) subtracted)

variable (zone)

/-- What `save` leaves at a name. -/
theorem save_eq_ok {sorter : Sorter indexLess} {saved : Option Entry}
    (returned : zone.save sorter = .ok saved) :
    (zone.needNewBuilder = true ∧ saved = none) ∨
      (zone.needNewBuilder = false ∧ ((zone.sb.rrs = [] ∧ saved = none) ∨
          ∃ entry, saved = some entry ∧ entry.rrs ≠ [] ∧ entry.rrs.Perm zone.sb.rrs)) := by
  simp only [save, Run.bind_eq_ok] at returned
  obtain ⟨_, _, _, _, returned⟩ := returned
  split at returned
  · rename_i need
    split at returned
    · cases returned
      exact Or.inl ⟨need, rfl⟩
    · cases returned
  · rename_i need
    refine Or.inr ⟨Bool.eq_false_iff.mpr need, ?_⟩
    rw [Run.bind_eq_ok] at returned
    obtain ⟨entry, finished, same⟩ := returned
    cases same
    have perm := finish_perm sorter entry finished
    split
    · rename_i empty
      rw [empty] at perm
      exact Or.inl ⟨perm.symm.eq_nil, rfl⟩
    · rename_i some
      exact Or.inr ⟨entry, rfl, some, perm⟩

end Specification

end ZoneMerge

end Nsblast
