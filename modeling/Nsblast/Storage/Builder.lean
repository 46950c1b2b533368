import Nsblast.Library.SortedRange
import Nsblast.Storage.Record

/-!
# Building an entry

`StorageBuilder` appends records behind a header and, when it is finished, sorts
an index of them by type. The model keeps the records in the order of the index
and computes the bytes they take. All offsets have sixteen bits: a buffer that
outgrows them is reported as `outOfBounds`, since what is read back from it is
not what was written. The same holds for an index of more elements than one block
of a `std::deque` has, since `finish` copies the index as if it were one block.

`std::sort` is not stable and is taken as any sorting function. Its comparison
asserts that a type has a place in the sorting table; with two or more records
every record is compared.
-/

namespace Nsblast

open Run

section writeName

/-- `createLookupTableForCharsInLabelName`, for bytes other than the dot. -/
def validByte (ch : UInt8) : Bool :=
  (0x30 ≤ ch && ch ≤ 0x39) || (0x61 ≤ ch && ch ≤ 0x7A) || (0x41 ≤ ch && ch ≤ 0x5A) || ch == 0x2D

/-- The check of one byte by `parseDomainNameSegment`. The table has 255 places,
so the last byte value is looked up behind it. -/
def checkByte (first : Bool) (ch : UInt8) : Run Unit :=
  if first && ch == 0x2D then
    .thrown "parseDomainNameSegment: domain-name segment cannot start with a dash!"
  else if first && ch == 0x5F then .ok ()
  else if ch == 0xFF then .outOfBounds
  else throwIf (!validByte ch) "parseDomainNameSegment: Invalid character in name-segment!"

def checkBytes : Bool → List UInt8 → Run Unit
  | _, [] => .ok ()
  | first, ch :: rest => do
      checkByte first ch
      checkBytes false rest

/-- One turn of the loop of `writeName`. An empty segment fails an assertion, and
so does one whose length does not fit into the `char` that counts it. -/
def writeSegment (segment : List UInt8) : Run Unit := do
  assert (segment ≠ [])
  checkBytes true segment
  assert (segment.length ≤ 127)
  throwIf (63 < segment.length)
    ("writeName: labels must be less 64 bytes. This label: " ++ toString segment.length)

/-- The loop of `writeName`, which ends at a final dot. The bytes are those of the labels
and of the root. -/
def writeSegments : List (List UInt8) → Run Nat
  | [] => .ok 1
  | segment :: rest =>
      if segment = [] ∧ rest = [] then .ok 1
      else do
        writeSegment segment
        let bytes ← writeSegments rest
        .ok (segment.length + 1 + bytes)

/-- `writeName`: which names can be written, and how many bytes are. -/
def writeName (fqdn : Name) : Run Nat := do
  throwIf (256 ≤ fqdn.length + 2)
    ("writeName: fdqn must be less than 256 bytes. This fdqn require " ++
      toString (fqdn.length + 2) ++ " bytes.")
  writeSegments (fqdn.splitOn 0x2E)

/-- The name is written with no final dot left out. -/
abbrev Name.Writable (name : Name) : Prop :=
  writeName name = .ok (if name = [] then 1 else name.length + 2)

end writeName

/-- The place of a type in the index, as the sorting table has it. -/
def sortingTable (type : UInt16) : Nat :=
  if type = RrType.soa then 1
  else if type = RrType.ns then 2
  else if type = RrType.a then 3
  else if type = RrType.aaaa then 4
  else if type = RrType.cname then 5
  else if type = RrType.mx then 6
  else if type = RrType.txt then 7
  else if type.toNat < 30 then 9
  else 16

/-- The comparison of the index. -/
abbrev indexLess (first second : StoredRr) : Bool :=
  compare (sortingTable first.type) (sortingTable second.type) == .lt

/-- `std::sort` as insertion sort, to run the model. -/
def insertionIndex : Sorter indexLess :=
  Sorter.byKey compare fun rr : StoredRr => sortingTable rr.type

/-- `boost::uuids::uuid`. -/
abbrev Uuid := BitVec 128

/-- A finished entry: the tenant, the length of the zone's name, which is zero in
the entry of a zone, and the records in the order of the index. -/
structure Entry where
  tenantId : Option Uuid
  zoneLen : Nat
  rrs : List StoredRr
  deriving DecidableEq, Repr

/-- `BUFFER_HEADER_LEN`. -/
def bufferHeaderLen : Nat := 8

/-- Where the first name is written: behind the header and, if one is set, the
tenant id. -/
def firstName (tenantId : Option Uuid) : Nat :=
  bufferHeaderLen + if tenantId.isSome then 16 else 0

namespace Entry

/-- The flags of the header that are set when a record of the type is added. -/
def hasType (entry : Entry) (type : UInt16) : Bool := entry.rrs.any fun rr => rr.type == type

/-- What the entry says about its name. -/
def bodies (entry : Entry) : List Body := entry.rrs.map (·.toBody)

end Entry

/-- The index elements in one block of the deque, 512 bytes of four each, as
libstdc++ has it. -/
def indexBlock : Nat := 128

structure StorageBuilder where
  tenantId : Option Uuid := none
  zoneLen : Nat := 0
  rrs : List StoredRr := []
  oneSoa : Bool := true
  sort : Bool := true

namespace StorageBuilder

def size (builder : StorageBuilder) : Nat :=
  firstName builder.tenantId + (builder.rrs.map StoredRr.size).sum

/-- `defaultLabels().string()`, the first name written. -/
def defaultLabels (builder : StorageBuilder) : Name :=
  match builder.rrs with
  | [] => []
  | first :: _ => first.owner

/-- `adding`. -/
def adding (builder : StorageBuilder) (rr : StoredRr) : StorageBuilder :=
  { builder with rrs := builder.rrs ++ [rr] }

theorem sanitizeTtl_le (ttl : UInt32) : sanitizeTtl ttl ≤ ttlMax := by
  rw [sanitizeTtl]
  split
  · exact UInt32.le_refl ttlMax
  · rename_i accepted
    exact UInt32.not_lt.mp accepted

/-- The record `finishRr` writes. -/
def newRr (owner : Name) (pointer : Bool) (type : UInt16) (ttl : UInt32) (rdata : List UInt8) :
    StoredRr where
  owner := owner
  type := type
  clas := classIn
  ttl := sanitizeTtl ttl
  rdata := rdata
  pointer := pointer
  sane := Or.inr ⟨rfl, sanitizeTtl_le ttl⟩

/-- `finishRr`. -/
def finishRr (builder : StorageBuilder) (owner : Name) (pointer : Bool) (type : UInt16)
    (ttl : UInt32) (rdata : List UInt8) : Run StorageBuilder := do
  throwIf (type = RrType.soa ∧ builder.oneSoa ∧ ∃ rr ∈ builder.rrs, rr.type = RrType.soa)
    "StorageBuilder::finishRr: More than one SOA!"
  if (builder.adding (newRr owner pointer type ttl rdata)).size ≤ 65535 then
    .ok (builder.adding (newRr owner pointer type ttl rdata))
  else .outOfBounds

/-- The name is written as a pointer to the first one. -/
def sharesName (builder : StorageBuilder) (fqdn : Name) (isOneEntity : Bool) : Bool :=
  builder.rrs ≠ [] &&
    (isOneEntity || (builder.defaultLabels ≠ [] && builder.defaultLabels == fqdn))

/-- The name without a final dot. -/
def withoutDot (fqdn : Name) : Name :=
  if fqdn.getLast? = some 0x2E then fqdn.dropLast else fqdn

/-- `labels_len` of `createRr`. -/
def labelsLen (fqdn : Name) : Nat := if fqdn = [] then 1 else (withoutDot fqdn).length + 2

/-- `createRr` on a name. The bytes of the name are counted before it is written; for
the root with its dot, and for a name with two of them, the count is wrong, which fails an
assertion. -/
def createRr (builder : StorageBuilder) (fqdn : Name) (type : UInt16) (ttl : UInt32)
    (rdata : List UInt8) (isOneEntity : Bool) : Run StorageBuilder :=
  if builder.sharesName fqdn isOneEntity then
    builder.finishRr builder.defaultLabels true type ttl rdata
  else do
    let rlen ← writeName (withoutDot fqdn)
    assert (rlen = labelsLen fqdn)
    builder.finishRr (withoutDot fqdn) false type ttl rdata

/-- `addRr`. -/
def addRr (builder : StorageBuilder) (rr : Record) : Run StorageBuilder :=
  builder.createRr rr.owner rr.type rr.ttl rr.rdata false

/-- The loop of `replaceSoa`. Both records are SOAs, so that the type is not
changed by the copy. -/
def replaceFirstSoa (soa : Body) : List StoredRr → Run (List StoredRr)
  | [] => .thrown "StorageBuilder::replaceSoa: SOA record not found!"
  | rr :: rest =>
      if isSoa : rr.type = RrType.soa then do
        throwIf (rr.dataSpanAfterLabel.length ≠ soa.dataSpanAfterLabel.length)
          "StorageBuilder::replaceSoa: SOA records not same size!"
        .ok ({ rr with clas := soa.clas, ttl := soa.ttl, rdata := soa.rdata,
                       sane := Or.inl isSoa } :: rest)
      else do
        let rest ← replaceFirstSoa soa rest
        .ok (rr :: rest)

/-- `replaceSoa`. -/
def replaceSoa (builder : StorageBuilder) (soa : Body) : Run StorageBuilder := do
  let rrs ← replaceFirstSoa soa builder.rrs
  .ok { builder with rrs }

/-- `finish`. -/
def finish (sorter : Sorter indexLess) (builder : StorageBuilder) : Run Entry := do
  assert (builder.sort = true → 2 ≤ builder.rrs.length → ∀ rr ∈ builder.rrs, rr.type.toNat < 255)
  if builder.rrs.length ≤ indexBlock then
    .ok ⟨builder.tenantId, builder.zoneLen,
      if builder.sort then sorter.sort builder.rrs else builder.rrs⟩
  else .outOfBounds

section Specification

variable {builder : StorageBuilder}

/-- The body `finishRr` gives to a record. -/
def sanitized (body : Body) : Body := { body with clas := classIn, ttl := sanitizeTtl body.ttl }

/-- A body that is stored as it is. -/
theorem sanitized_of_sane {body : Body} (inClass : body.clas = classIn)
    (accepted : body.ttl ≤ ttlMax) : sanitized body = body := by
  rw [sanitized, sanitizeTtl, if_neg (UInt32.not_lt.mpr accepted), ← inClass]

variable {next : StorageBuilder}

variable {type : UInt16} {ttl : UInt32} {rdata : List UInt8}

theorem finishRr_eq_ok {owner : Name} {pointer : Bool}
    (finished : builder.finishRr owner pointer type ttl rdata = .ok next) :
    next = builder.adding (newRr owner pointer type ttl rdata) ∧ next.size ≤ 65535 ∧
      (type = RrType.soa → builder.oneSoa = true → ∀ rr ∈ builder.rrs, rr.type ≠ RrType.soa) := by
  by_cases second :
      type = RrType.soa ∧ builder.oneSoa ∧ ∃ rr ∈ builder.rrs, rr.type = RrType.soa
  · rw [finishRr, throwIf_of second, bind_thrown] at finished
    cases finished
  · rw [finishRr, throwIf_of_not second, bind_ok] at finished
    split at finished
    · rename_i fits
      cases finished
      refine ⟨rfl, fits, ?_⟩
      intro isSoa one rr member has
      exact second ⟨isSoa, one, rr, member, has⟩
    · cases finished

/-- What a successful `createRr` has added. -/
theorem createRr_eq_ok {fqdn : Name} {isOneEntity : Bool}
    (created : builder.createRr fqdn type ttl rdata isOneEntity = .ok next) :
    next = builder.adding (newRr
        (if builder.sharesName fqdn isOneEntity then builder.defaultLabels else withoutDot fqdn)
        (builder.sharesName fqdn isOneEntity) type ttl rdata) ∧
      next.size ≤ 65535 ∧
      (type = RrType.soa → builder.oneSoa = true → ∀ rr ∈ builder.rrs, rr.type ≠ RrType.soa) := by
  rw [createRr] at created
  split at created
  · rename_i shares
    rw [shares, if_pos rfl]
    exact finishRr_eq_ok created
  · rename_i full
    simp only [bind_eq_ok] at created
    obtain ⟨_, _, _, _, finished⟩ := created
    rw [if_neg full, Bool.eq_false_iff.mpr full]
    exact finishRr_eq_ok finished

/-- What a successful `addRr` has added, apart from the owner. -/
theorem addRr_eq_ok {rr : Record} (added : builder.addRr rr = .ok next) :
    ∃ stored, next = builder.adding stored ∧ stored.toBody = sanitized rr.toBody ∧
      (rr.type = RrType.soa → builder.oneSoa = true →
        ∀ other ∈ builder.rrs, other.type ≠ RrType.soa) := by
  obtain ⟨rfl, _, single⟩ := createRr_eq_ok added
  exact ⟨_, rfl, rfl, single⟩

/-- A replaced SOA keeps its place; the others keep everything. -/
theorem replaceFirstSoa_eq_ok {soa : Body} {rrs replaced : List StoredRr}
    (returned : replaceFirstSoa soa rrs = .ok replaced) :
    ∃ before old new after, rrs = before ++ old :: after ∧ replaced = before ++ new :: after ∧
      (∀ rr ∈ before, rr.type ≠ RrType.soa) ∧ old.type = RrType.soa ∧
      new.toBody = { soa with type := RrType.soa } ∧ new.size = old.size := by
  induction rrs generalizing replaced with
  | nil => cases returned
  | cons rr rest ih =>
    rw [replaceFirstSoa] at returned
    split at returned
    · rename_i isSoa
      by_cases differ : rr.dataSpanAfterLabel.length ≠ soa.dataSpanAfterLabel.length
      · rw [throwIf_of differ, bind_thrown] at returned
        cases returned
      · rw [throwIf_of_not differ, bind_ok] at returned
        cases returned
        refine ⟨[], rr, _, rest, rfl, rfl, ?_, isSoa, ?_, ?_⟩
        · intro other none
          cases none
        · simp only [isSoa]
        · simp only [Body.dataSpanAfterLabel, List.length_append,
            length_bigEndian] at differ
          simp only [StoredRr.size, StoredRr.labelLen]
          omega
    · rename_i other
      rw [bind_eq_ok] at returned
      obtain ⟨tail, found, same⟩ := returned
      cases same
      obtain ⟨before, old, new, after, rfl, rfl, plain, rest⟩ := ih found
      refine ⟨rr :: before, old, new, after, rfl, rfl, ?_, rest⟩
      intro candidate member
      rcases List.mem_cons.mp member with rfl | later
      · exact other
      · exact plain candidate later

/-- What a finished builder shows. -/
theorem finish_eq_ok {sorter : Sorter indexLess} {entry : Entry}
    (finished : builder.finish sorter = .ok entry) :
    entry = ⟨builder.tenantId, builder.zoneLen,
      if builder.sort then sorter.sort builder.rrs else builder.rrs⟩ := by
  rw [finish, bind_eq_ok] at finished
  obtain ⟨_, _, finished⟩ := finished
  split at finished
  · cases finished
    rfl
  · cases finished

/-- Finishing keeps the records. -/
theorem finish_perm (sorter : Sorter indexLess) (entry : Entry)
    (finished : builder.finish sorter = .ok entry) : entry.rrs.Perm builder.rrs := by
  rw [finish_eq_ok finished]
  split
  · exact sorter.perm builder.rrs
  · exact List.Perm.refl _

end Specification

end StorageBuilder

end Nsblast
