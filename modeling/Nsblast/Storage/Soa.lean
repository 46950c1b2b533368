import Nsblast.Storage.SelfSpan

/-!
# The serial of a zone

`incrementSoaVersion` gives the SOA of a builder the serial behind the one of the
SOA in an entry. It works on the buffer, so that it can be called before the
builder is finished and after; `raiseSerial` is what both have in common. The
serial is a number of 32 bits and wraps.

The second part describes entries whose records belong to one name: how they are
built, and what a finished one has in common with every entry the REST interface
writes.
-/

namespace Nsblast

open List Run

namespace Body

/-- `setValueAt` on the serial of the data of a SOA. -/
def serialSet (rdata : List UInt8) (serial : Nat) : List UInt8 :=
  rdata.take (rdata.length - 20) ++ be32 serial ++ rdata.drop (rdata.length - 16)

theorem serialSet_length (rdata : List UInt8) (serial : Nat) (wide : 20 ≤ rdata.length) :
    (serialSet rdata serial).length = rdata.length := by
  simp only [serialSet, length_append, length_take, length_drop, length_bigEndian]
  omega

/-- The serial that is read back. -/
theorem soaSerial_serialSet {body : Body} {serial : Nat} (fits : serial < 4294967296)
    (wide : minRrLen ≤ body.rdata.length) :
    soaSerial { body with rdata := serialSet body.rdata serial } = .ok serial := by
  rw [minRrLen] at wide
  have length := serialSet_length body.rdata serial (by omega)
  have taken : (body.rdata.take (body.rdata.length - 20)).length = body.rdata.length - 20 := by
    rw [length_take]
    omega
  rw [soaSerial]
  rw [length, minRrLen, assert_of (by omega), bind_ok, serialSet, append_assoc,
    drop_left' taken, take_left' (by rfl), readBigEndian_fits 4 fits]

end Body

/-- The write to the serial of the builder's SOA. -/
def setSerial (serial : Nat) : List StoredRr → Run (List StoredRr)
  | [] => .thrown "incrementSoaVersion: No soa_offset_"
  | rr :: rest =>
      if isSoa : rr.type = RrType.soa then
        if 20 ≤ rr.rdata.length then
          .ok ({ rr with rdata := Body.serialSet rr.rdata serial, sane := Or.inl isSoa } :: rest)
        else .outOfBounds
      else do
        let rest ← setSerial serial rest
        .ok (rr :: rest)

/-- The part of `incrementSoaVersion` behind its first check. -/
def raiseSerial (rrs : List StoredRr) (entry : Entry) : Run (List StoredRr) :=
  match entry.rrs.find? fun rr => rr.type == RrType.soa with
  | none => .thrown "incrementSoaVersion: No soa in entry"
  | some oldSoa => do
      let oldSerial ← soaSerial oldSoa.toBody
      setSerial ((oldSerial + 1) % 4294967296) rrs

/-- The records `incrementSoaVersion` leaves in the buffer. -/
def incrementedRrs (rrs : List StoredRr) (entry : Entry) : Run (List StoredRr) := do
  throwIf (¬ ∃ rr ∈ rrs, rr.type = RrType.soa) "incrementSoaVersion: No soa_offset_"
  raiseSerial rrs entry

namespace StorageBuilder

/-- `incrementSoaVersion` on a builder that is not finished. -/
def incrementSoaVersion (builder : StorageBuilder) (entry : Entry) : Run StorageBuilder := do
  let rrs ← incrementedRrs builder.rrs entry
  .ok { builder with rrs }

/-- `setZoneLen`. -/
def setZoneLen (builder : StorageBuilder) (len : Nat) : Run StorageBuilder := do
  throwIf (255 < len) "setZoneLen: too long!"
  .ok { builder with zoneLen := len }

/-- `StorageBuilder::exists`. -/
def existsRr (builder : StorageBuilder) (rr : Record) : Bool :=
  builder.rrs.any fun other =>
    other.type == rr.type && other.clas == rr.clas && other.rdata == rr.rdata &&
      other.owner == rr.owner

end StorageBuilder

namespace Entry

/-- `incrementSoaVersion` on a finished builder. -/
def incrementSoaVersion (entry existing : Entry) : Run Entry := do
  let rrs ← incrementedRrs entry.rrs existing
  .ok { entry with rrs }

/-- `soa()` of the builder: the SOA that was added. -/
def soa (entry : Entry) : Option StoredRr := entry.rrs.find? fun rr => rr.type == RrType.soa

/-- The record `begin()` stands on. -/
def first (entry : Entry) : Run StoredRr :=
  match entry.rrs with
  | [] => .outOfBounds
  | rr :: _ => .ok rr

/-- `getSoa`. -/
def getSoa (entry : Entry) : Run StoredRr := do
  assert (entry.hasType RrType.soa)
  entry.first

/-- The serial of a zone, read from its entry. -/
def serial (entry : Entry) : Run Nat := do
  let soa ← entry.getSoa
  soaSerial soa.toBody

end Entry

section Increment

/-- The SOA in an entry whose SOA is first. -/
theorem find_soa_first {soa : StoredRr} (others : List StoredRr) (isSoa : soa.type = RrType.soa) :
    (soa :: others).find? (fun rr => rr.type == RrType.soa) = some soa := by
  rw [find?_cons, isSoa, beq_self_eq_true]

theorem setSerial_eq_ok {serial : Nat} {rrs result : List StoredRr}
    (returned : setSerial serial rrs = .ok result) :
    ∃ before soa raised after, rrs = before ++ soa :: after ∧ result = before ++ raised :: after ∧
      (∀ rr ∈ before, rr.type ≠ RrType.soa) ∧ soa.type = RrType.soa ∧ 20 ≤ soa.rdata.length ∧
      raised.toRecord = { soa.toRecord with rdata := Body.serialSet soa.rdata serial } := by
  induction rrs generalizing result with
  | nil => cases returned
  | cons rr rest ih =>
    rw [setSerial] at returned
    split at returned
    · rename_i isSoa
      split at returned
      · rename_i wide
        cases returned
        refine ⟨[], rr, _, rest, rfl, rfl, ?_, isSoa, wide, rfl⟩
        intro other none
        cases none
      · cases returned
    · rename_i other
      rw [bind_eq_ok] at returned
      obtain ⟨tail, found, same⟩ := returned
      cases same
      obtain ⟨before, soa, raised, after, rfl, rfl, plain, rest⟩ := ih found
      refine ⟨rr :: before, soa, raised, after, rfl, rfl, ?_, rest⟩
      intro candidate member
      rcases mem_cons.mp member with rfl | later
      · exact other
      · exact plain candidate later

/-- What `incrementSoaVersion` has done. -/
theorem incrementedRrs_eq_ok {rrs result : List StoredRr} {entry : Entry}
    (returned : incrementedRrs rrs entry = .ok result) :
    ∃ old oldSerial before soa raised after,
      entry.rrs.find? (fun rr => rr.type == RrType.soa) = some old ∧
      soaSerial old.toBody = .ok oldSerial ∧
      rrs = before ++ soa :: after ∧ result = before ++ raised :: after ∧
      (∀ rr ∈ before, rr.type ≠ RrType.soa) ∧ soa.type = RrType.soa ∧ 20 ≤ soa.rdata.length ∧
      raised.toRecord = { soa.toRecord with
        rdata := Body.serialSet soa.rdata ((oldSerial + 1) % 4294967296) } := by
  rw [incrementedRrs, bind_eq_ok] at returned
  obtain ⟨_, _, returned⟩ := returned
  rw [raiseSerial] at returned
  split at returned
  · cases returned
  · rename_i old found
    rw [bind_eq_ok] at returned
    obtain ⟨oldSerial, read, returned⟩ := returned
    obtain ⟨before, soa, raised, after, rest⟩ := setSerial_eq_ok returned
    exact ⟨old, oldSerial, before, soa, raised, after, found, read, rest⟩

end Increment

/-- The SOA comes first in a sorted index. -/
theorem soa_first_of_sorted {rrs : List StoredRr}
    (sorted : rrs.Pairwise fun left right => indexLess right left = false)
    (hasSoa : ∃ rr ∈ rrs, rr.type = RrType.soa) :
    ∃ soa others, rrs = soa :: others ∧ soa.type = RrType.soa := by
  obtain ⟨soa, member, isSoa⟩ := hasSoa
  cases rrs with
  | nil => cases member
  | cons first others =>
    refine ⟨first, others, rfl, ?_⟩
    rcases mem_cons.mp member with rfl | later
    · exact isSoa
    · have notBehind := (pairwise_cons.mp sorted).1 soa later
      by_contra other
      have place : 1 < sortingTable first.type := by
        rw [sortingTable, if_neg other]
        repeat' split
        all_goals omega
      have soaPlace : sortingTable soa.type = 1 := by rw [sortingTable, if_pos isSoa]
      rw [indexLess, soaPlace, beq_eq_false_iff_ne, ne_eq, Nat.compare_eq_lt] at notBehind
      exact notBehind place

/-- The SOAs among records. -/
def soasOf (rrs : List StoredRr) : List StoredRr := rrs.filter fun rr => rr.type == RrType.soa

theorem mem_soasOf (rrs : List StoredRr) (rr : StoredRr) :
    rr ∈ soasOf rrs ↔ rr ∈ rrs ∧ rr.type = RrType.soa := by
  rw [soasOf, mem_filter, beq_iff_eq]

theorem find_soa_eq_head (rrs : List StoredRr) :
    rrs.find? (fun rr => rr.type == RrType.soa) = (soasOf rrs).head? :=
  head?_filter.symm

/-- What the records of one name have in common, in whatever order: the name is as
required and could be written, and there is at most one SOA, which has room for its
numbers. -/
structure OfName (named : Name → Prop) (rrs : List StoredRr) : Prop where
  owned : ∀ rr ∈ rrs, named rr.owner
  writable : ∀ rr ∈ rrs, Name.Writable rr.owner
  single : (soasOf rrs).length ≤ 1
  wide : ∀ rr ∈ rrs, rr.type = RrType.soa → minRrLen ≤ rr.rdata.length

namespace OfName

variable {named : Name → Prop} {rrs : List StoredRr}

theorem nil (named : Name → Prop) : OfName named [] := ⟨nofun, nofun, Nat.zero_le _, nofun⟩

theorem mono {other : Name → Prop} (ofName : OfName named rrs)
    (weaker : ∀ owner, named owner → other owner) : OfName other rrs :=
  ⟨fun rr member => weaker rr.owner (ofName.owned rr member), ofName.writable, ofName.single,
    ofName.wide⟩

theorem of_perm {other : List StoredRr} (ofName : OfName named rrs) (perm : other.Perm rrs) :
    OfName named other := by
  refine ⟨?_, ?_, ?_, ?_⟩
  · exact fun rr member => ofName.owned rr (perm.mem_iff.mp member)
  · exact fun rr member => ofName.writable rr (perm.mem_iff.mp member)
  · rw [soasOf, (perm.filter _).length_eq]
    exact ofName.single
  · exact fun rr member => ofName.wide rr (perm.mem_iff.mp member)

/-- One more record. -/
theorem concat (ofName : OfName named rrs) (rr : StoredRr)
    (owner : named rr.owner) (written : Name.Writable rr.owner)
    (wide : rr.type = RrType.soa → minRrLen ≤ rr.rdata.length)
    (only : rr.type = RrType.soa → ∀ other ∈ rrs, other.type ≠ RrType.soa) :
    OfName named (rrs ++ [rr]) := by
  have cases_ (p : StoredRr → Prop) (old : ∀ other ∈ rrs, p other) (new : p rr) :
      ∀ other ∈ rrs ++ [rr], p other := by
    intro other member
    rcases mem_append.mp member with earlier | last
    · exact old other earlier
    · rw [mem_singleton.mp last]
      exact new
  refine ⟨cases_ _ ofName.owned owner, cases_ _ ofName.writable written, ?_,
    cases_ _ ofName.wide wide⟩
  rw [soasOf, filter_append, length_append]
  by_cases isSoa : rr.type = RrType.soa
  · have none : rrs.filter (fun rr => rr.type == RrType.soa) = [] := by
      rw [filter_eq_nil_iff]
      intro other member
      rw [beq_iff_eq]
      exact only isSoa other member
    rw [none, length_nil, Nat.zero_add]
    exact length_filter_le _ _
  · rw [filter_cons_of_neg (by rw [beq_iff_eq]; exact isSoa)]
    exact ofName.single

/-- Raising the serial. -/
theorem increment {result : List StoredRr} (ofName : OfName named rrs) (entry : Entry)
    (returned : incrementedRrs rrs entry = .ok result) : OfName named result := by
  obtain ⟨_, oldSerial, before, soa, raised, after, _, _, rfl, rfl, _, isSoa, room, shape⟩ :=
    incrementedRrs_eq_ok returned
  have type : raised.type = soa.type := by rw [shape]
  have owner : raised.owner = soa.owner := by rw [shape]
  have replaced (p : StoredRr → Prop) (old : ∀ rr ∈ before ++ soa :: after, p rr)
      (new : p soa → p raised) : ∀ rr ∈ before ++ raised :: after, p rr := by
    intro rr member
    simp only [mem_append, mem_cons] at member old
    rcases member with earlier | rfl | later
    · exact old rr (Or.inl earlier)
    · exact new (old soa (Or.inr (Or.inl rfl)))
    · exact old rr (Or.inr (Or.inr later))
  refine ⟨replaced _ ofName.owned ?_, replaced _ ofName.writable ?_, ?_, replaced _ ofName.wide ?_⟩
  · intro owned
    rw [owner]
    exact owned
  · intro written
    rw [owner]
    exact written
  · have single := ofName.single
    rw [soasOf, filter_append, filter_cons, isSoa] at single
    rw [soasOf, filter_append, filter_cons, type, isSoa]
    simpa using single
  · intro wide _
    rw [shape]
    rw [Body.serialSet_length _ _ room]
    exact wide isSoa

/-- The SOA after its serial was raised. -/
theorem incremented_serial {result : List StoredRr} (ofName : OfName named rrs) {entry : Entry}
    {old : StoredRr} {oldSerial : Nat}
    (found : entry.rrs.find? (fun rr => rr.type == RrType.soa) = some old)
    (read : soaSerial old.toBody = .ok oldSerial)
    (returned : incrementedRrs rrs entry = .ok result) :
    ∃ raised, soasOf result = [raised] ∧
      soaSerial raised.toBody = .ok ((oldSerial + 1) % 4294967296) := by
  have after := ofName.increment entry returned
  obtain ⟨other, serial, front, soa, raised, back, sameFound, sameRead, split, rfl, _, isSoa, _,
    shape⟩ := incrementedRrs_eq_ok returned
  cases found.symm.trans sameFound
  cases read.symm.trans sameRead
  have type : raised.type = RrType.soa := by
    rw [shape]
    exact isSoa
  have member : raised ∈ soasOf (front ++ raised :: back) :=
    (mem_soasOf _ _).mpr ⟨mem_append_right _ mem_cons_self, type⟩
  refine ⟨raised, ?_, ?_⟩
  · obtain ⟨only, alone⟩ := length_eq_one_iff.mp
      (Nat.le_antisymm after.single (length_pos_of_mem member))
    rw [alone, mem_singleton] at member
    rw [alone, member]
  · have wide := ofName.wide soa (by rw [split]; exact mem_append_right _ mem_cons_self)
      isSoa
    have body : raised.toBody = { soa.toBody with
        rdata := Body.serialSet soa.rdata ((oldSerial + 1) % 4294967296) } := by
      rw [shape]
    rw [body]
    exact Body.soaSerial_serialSet (Nat.mod_lt _ (by decide)) wide

end OfName

/-- What the entry of a name has in common with every entry the interface stores. -/
structure Stored (name : Name) (entry : Entry) : Prop where
  ofName : OfName (fun owner => Name.toLower owner = name) entry.rrs
  soaFirst : (∃ rr ∈ entry.rrs, rr.type = RrType.soa) →
    ∃ soa others, entry.rrs = soa :: others ∧ soa.type = RrType.soa

namespace Entry

theorem hasType_iff (entry : Entry) (type : UInt16) :
    entry.hasType type = true ↔ ∃ rr ∈ entry.rrs, rr.type = type := by
  rw [hasType, any_eq_true]
  simp

end Entry

namespace StorageBuilder

theorem withoutDot_of_plain {name : Name} (plain : name.getLast? ≠ some 0x2E) :
    withoutDot name = name :=
  if_neg plain

theorem withoutDot_toLower (name : Name) :
    withoutDot (Name.toLower name) = Name.toLower (withoutDot name) := by
  by_cases dotted : name.getLast? = some 0x2E
  · rw [withoutDot, withoutDot, if_pos dotted, if_pos (Name.toLower_dotted dotted), Name.toLower,
      Name.toLower, map_dropLast]
  · rw [withoutDot_of_plain (Name.toLower_plain dotted), withoutDot_of_plain dotted]

/-- `createRr` for the one name of a builder. -/
theorem createRr_ofName {builder next : StorageBuilder} {fqdn : Name} {type : UInt16} {ttl : UInt32}
    {rdata : List UInt8} (created : builder.createRr fqdn type ttl rdata true = .ok next)
    (one : builder.oneSoa = true) (wide : type = RrType.soa → minRrLen ≤ rdata.length)
    (ofName : OfName (· = withoutDot fqdn) builder.rrs) :
    ∃ rr, next = builder.adding rr ∧ OfName (· = withoutDot fqdn) next.rrs ∧
      rr.owner = withoutDot fqdn ∧ rr.toBody = sanitized ⟨type, classIn, ttl, rdata⟩ := by
  have finished (owner : Name) (pointer : Bool) (same : owner = withoutDot fqdn)
      (written : Name.Writable owner)
      (finished : builder.finishRr owner pointer type ttl rdata = .ok next) :
      ∃ rr, next = builder.adding rr ∧ OfName (· = withoutDot fqdn) next.rrs ∧
        rr.owner = withoutDot fqdn ∧ rr.toBody = sanitized ⟨type, classIn, ttl, rdata⟩ := by
    obtain ⟨rfl, _, only⟩ := finishRr_eq_ok finished
    exact ⟨_, rfl, ofName.concat _ same written wide fun isSoa => only isSoa one, same, rfl⟩
  rw [createRr] at created
  split at created
  · rename_i shares
    simp only [sharesName, Bool.and_eq_true, decide_eq_true_eq] at shares
    cases rrs : builder.rrs with
    | nil => exact absurd rrs shares.1
    | cons first others =>
      have member : first ∈ builder.rrs := by
        rw [rrs]
        exact mem_cons_self
      have labels : builder.defaultLabels = first.owner := by rw [defaultLabels, rrs]
      apply finished _ true _ _ created
      · exact labels.trans (ofName.owned first member)
      · rw [labels]
        exact ofName.writable first member
  · simp only [bind_eq_ok] at created
    obtain ⟨rlen, written, _, measured, created⟩ := created
    obtain rfl : rlen = labelsLen fqdn := of_decide_eq_true (assert_eq_ok measured)
    exact finished _ false rfl (writeName_labelsLen.mp written).1 created

/-- An entry that was built for one name. -/
theorem stored_finish (builder : StorageBuilder) {sorter : Sorter indexLess} (entry : Entry)
    (fqdn : Name) (plain : fqdn.getLast? ≠ some 0x2E)
    (ofName : OfName (· = withoutDot fqdn) builder.rrs) (sorts : builder.sort = true)
    (finished : builder.finish sorter = .ok entry) : Stored (Name.toLower fqdn) entry := by
  have sorted : entry.rrs.Pairwise fun left right => indexLess right left = false := by
    rw [finish_eq_ok finished, sorts]
    exact sorter.sorted builder.rrs
  refine ⟨?_, soa_first_of_sorted sorted⟩
  apply (ofName.of_perm (finish_perm sorter entry finished)).mono
  rintro owner rfl
  rw [withoutDot_of_plain plain]

end StorageBuilder

namespace Stored

variable {name : Name} {entry : Entry} (stored : Stored name entry)

include stored

theorem owners (rr : StoredRr) (member : rr ∈ entry.rrs) : rr.key = name :=
  stored.ofName.owned rr member

theorem writable (rr : StoredRr) (member : rr ∈ entry.rrs) : Name.Writable rr.owner :=
  stored.ofName.writable rr member

/-- Raising the serial keeps what the entry is. -/
theorem increment (existing raised : Entry)
    (returned : entry.incrementSoaVersion existing = .ok raised) : Stored name raised := by
  rw [Entry.incrementSoaVersion, bind_eq_ok] at returned
  obtain ⟨rrs, incremented, same⟩ := returned
  cases same
  refine ⟨stored.ofName.increment existing incremented, ?_⟩
  obtain ⟨_, _, before, soa, raisedSoa, after, _, _, split, rfl, plain, isSoa, _, shape⟩ :=
    incrementedRrs_eq_ok incremented
  intro _
  obtain ⟨first, others, listed, firstSoa⟩ := stored.soaFirst
    ⟨soa, by rw [split]; exact mem_append_right _ mem_cons_self, isSoa⟩
  cases before with
  | nil =>
    refine ⟨raisedSoa, after, rfl, ?_⟩
    rw [shape]
    exact isSoa
  | cons head before =>
    rw [split, cons_append, List.cons.injEq] at listed
    rw [← listed.1] at firstSoa
    exact absurd firstSoa (plain head mem_cons_self)

end Stored

end Nsblast
