import Nsblast.Storage.SelfSpan
import Nsblast.Wire.Records

/-!
# The bytes of an entry

An entry is a header of eight bytes, the id of the tenant if there is one, the records,
and an index of them. `StorageBuilder` appends the records, the first with its name
written out and the others with a pointer to it, and `finish` sorts the index, appends it
and writes the header. `Entry` reads the header and the index, and parses a record where
the index says it is.

Every offset has sixteen bits. As in the model of the records of an entry, a buffer that
outgrows them is reported as `outOfBounds`, and so is an index of more elements than one
block of the deque it is kept in: `finish` copies it as if it were in one piece.

What changes records in place is left to that model.
-/

namespace Nsblast

open Run

/-- The bytes of a uuid. -/
def Uuid.bytes (uuid : Uuid) : List UInt8 := bigEndian 16 uuid.toNat

namespace Wire

open Buffer Labels

/-- `StorageTypes::Flags`. -/
structure Flags where
  soa : Bool := false
  ns : Bool := false
  a : Bool := false
  aaaa : Bool := false
  cname : Bool := false
  txt : Bool := false
  tenantId : Bool := false
  deriving DecidableEq, Repr

namespace Flags

def toByte (flags : Flags) : UInt8 :=
  UInt8.ofNat (flags.soa.toNat + 2 * flags.ns.toNat + 4 * flags.a.toNat + 8 * flags.aaaa.toNat +
    16 * flags.cname.toNat + 32 * flags.txt.toNat + 128 * flags.tenantId.toNat)

def ofByte (byte : UInt8) : Flags where
  soa := byte.toNat % 2 == 1
  ns := byte.toNat / 2 % 2 == 1
  a := byte.toNat / 4 % 2 == 1
  aaaa := byte.toNat / 8 % 2 == 1
  cname := byte.toNat / 16 % 2 == 1
  txt := byte.toNat / 32 % 2 == 1
  tenantId := byte.toNat / 128 == 1

/-- The flag that `adding` sets for a type. -/
def adding (flags : Flags) (type : UInt16) : Flags :=
  if type = RrType.soa then { flags with soa := true }
  else if type = RrType.ns then { flags with ns := true }
  else if type = RrType.a then { flags with a := true }
  else if type = RrType.aaaa then { flags with aaaa := true }
  else if type = RrType.cname then { flags with cname := true }
  else if type = RrType.txt then { flags with txt := true }
  else flags

end Flags

/-- The comparison of the index. -/
abbrev placeLess (first second : Index) : Bool :=
  compare (sortingTable (UInt16.ofNat first.type)) (sortingTable (UInt16.ofNat second.type)) == .lt

/-- `StorageBuilder`, after `prepare`. -/
structure StorageBuilder where
  buffer : Buffer := 1 :: List.replicate 7 0
  namePtr : Nat := 0
  labelLen : Nat := 0
  flags : Flags := {}
  index : List Index := []
  zonelen : Nat := 0
  soaOffset : Nat := 0
  finished : Bool := false
  sort : Bool := true
  oneSoa : Bool := true
  deriving DecidableEq, Repr

namespace StorageBuilder

/-- `setTenantId`. -/
def setTenantId (builder : StorageBuilder) (tid : Uuid) : Run StorageBuilder := do
  assert (builder.buffer.length = bufferHeaderLen)
  .ok { builder with
    buffer := builder.buffer ++ tid.bytes
    flags := { builder.flags with tenantId := true } }

/-- `setZoneLen`. -/
def setZoneLen (builder : StorageBuilder) (len : Nat) : Run StorageBuilder := do
  throwIf (len > 255) "setZoneLen: too long!"
  .ok { builder with zonelen := len }

/-- The place of the first SOA, which `finishRr` keeps. -/
def soaPlace (builder : StorageBuilder) (type : UInt16) : Run Nat :=
  if type ≠ RrType.soa then .ok builder.soaOffset
  else if builder.soaOffset = 0 then .ok builder.buffer.length
  else if builder.oneSoa then .thrown "StorageBuilder::finishRr: More than one SOA!"
  else .ok builder.soaOffset

/-- `finishRr` and `adding`, for a record whose name has been written as `labels`. -/
def finishRr (builder : StorageBuilder) (labels : List UInt8) (type : UInt16) (ttl : UInt32)
    (rdata : List UInt8) : Run StorageBuilder := do
  let soaOffset ← builder.soaPlace type
  let body : Body := ⟨type, classIn, sanitizeTtl ttl, rdata⟩
  let buffer := builder.buffer ++ labels ++ body.dataSpanAfterLabel
  if buffer.length ≤ 65535 then
    .ok { builder with
      buffer, soaOffset
      index := builder.index ++ [⟨type.toNat, builder.buffer.length⟩]
      flags := builder.flags.adding type }
  else .outOfBounds

/-- `createRr` with the offset of a name. -/
def createRrAt (builder : StorageBuilder) (nameOffset : Nat) (type : UInt16) (ttl : UInt32)
    (rdata : List UInt8) : Run StorageBuilder := do
  assert (!builder.finished)
  builder.finishRr (pointerBytes nameOffset) type ttl rdata

/-- `defaultLabels().string()`. -/
def defaultLabels (builder : StorageBuilder) : Run (List UInt8) :=
  if builder.namePtr = 0 then .ok []
  else do
    let labels ← Labels.parse builder.buffer builder.namePtr
    labels.string labels.count

/-- Whether `createRr` takes the name that was written first. -/
def sharesName (builder : StorageBuilder) (fqdn : Name) (isOneEntity : Bool) : Run Bool :=
  if builder.namePtr = 0 then .ok false
  else if isOneEntity then .ok true
  else do
    let dl ← builder.defaultLabels
    .ok (decide (dl ≠ [] ∧ dl = fqdn))

/-- `createRr` with a name. -/
def createRr (builder : StorageBuilder) (fqdn : Name) (type : UInt16) (ttl : UInt32)
    (rdata : List UInt8) (isOneEntity : Bool) : Run StorageBuilder := do
  assert (!builder.finished)
  let shares ← builder.sharesName fqdn isOneEntity
  if shares then builder.createRrAt builder.namePtr type ttl rdata
  else do
    let name := Nsblast.StorageBuilder.withoutDot fqdn
    let labelsLen := Nsblast.StorageBuilder.labelsLen fqdn
    let rlen ← writeName name
    assert (rlen = labelsLen)
    let named := { builder with
      namePtr := if builder.namePtr = 0 then builder.buffer.length else builder.namePtr
      labelLen := if builder.labelLen = 0 then labelsLen else builder.labelLen }
    named.finishRr (wireName name) type ttl rdata

/-- The header that `finish` writes. -/
def header (builder : StorageBuilder) : List UInt8 :=
  [1, builder.flags.toByte] ++ be16 builder.index.length ++
    [UInt8.ofNat builder.labelLen, UInt8.ofNat builder.zonelen] ++ be16 builder.buffer.length

/-- `finish`, with the bytes of the entry. -/
def finish (sorter : Sorter placeLess) (builder : StorageBuilder) : Run Buffer := do
  assert (!builder.finished)
  throwIf (builder.buffer.length < bufferHeaderLen)
    "StorageBuilder::finish: No room in buffer_ for the header."
  assert (builder.sort = true → 2 ≤ builder.index.length → ∀ place ∈ builder.index,
    place.type < 255)
  let index := if builder.sort then sorter.sort builder.index else builder.index
  if builder.index.length ≤ indexBlock then
    .ok (builder.header ++ builder.buffer.drop bufferHeaderLen ++
      index.flatMap fun place => be16 place.type ++ be16 place.offset)
  else .outOfBounds

end StorageBuilder

/-- `Entry`. -/
structure Entry where
  span : Buffer
  count : Nat
  index : List Index
  deriving DecidableEq, Repr

namespace Entry

/-- Two bytes of the entry, which nothing checks. -/
def read16 (buffer : Buffer) (location : Nat) : Run Nat := do
  let high ← Buffer.read buffer location
  let low ← Buffer.read buffer (location + 1)
  .ok (readBigEndian [high, low])

/-- The elements of the index. -/
def readIndex (buffer : Buffer) : Nat → Nat → Run (List Index)
  | _, 0 => .ok []
  | location, count + 1 => do
      let type ← read16 buffer location
      let offset ← read16 buffer (location + 2)
      let rest ← readIndex buffer (location + 4) count
      .ok (⟨type, offset⟩ :: rest)

/-- The construction of an `Entry`. The index is a view; it is read here. -/
def construct (buffer : Buffer) : Run Entry :=
  if buffer = [] then .ok ⟨[], 0, []⟩
  else do
    assert (bufferHeaderLen ≤ buffer.length)
    let count ← read16 buffer 2
    let ixoffset ← read16 buffer 6
    let index ← readIndex buffer ixoffset count
    .ok ⟨buffer, count, index⟩

variable (entry : Entry)

def flags : Run Flags := do
  assert (bufferHeaderLen ≤ entry.span.length)
  let byte ← Buffer.read entry.span 1
  .ok (Flags.ofByte byte)

def zonelen : Run Nat := do
  assert (bufferHeaderLen ≤ entry.span.length)
  let byte ← Buffer.read entry.span 5
  .ok byte.toNat

def tenantId : Run (Option Uuid) := do
  let flags ← entry.flags
  if flags.tenantId then do
    assert (bufferHeaderLen + 16 ≤ entry.span.length)
    let bytes ← readRange entry.span bufferHeaderLen 16
    .ok (some (BitVec.ofNat 128 (readBigEndian bytes)))
  else .ok none

/-- The record of an element of the index, as the iterator shows it. -/
def rrAt (place : Index) : Run Rr := do
  assert (place.offset < entry.span.length + 10)
  let rr ← Rr.parse entry.span place.offset false
  let type ← rr.type entry.span
  assert (type = place.type)
  .ok rr

/-- The iterator shows records of the entry that have the type of the index. -/
theorem rrAt_parsed {place : Index} {rr : Rr} (isRr : entry.rrAt place = .ok rr) :
    Rr.parse entry.span place.offset false = .ok rr ∧ rr.type entry.span = .ok place.type := by
  simp only [rrAt, bind_eq_ok] at isRr
  obtain ⟨_, _, other, parsed, type, isType, _, same, returned⟩ := isRr
  cases returned
  have isPlace := of_decide_eq_true (assert_eq_ok same)
  rw [← isPlace]
  exact ⟨parsed, isType⟩

/-- The records in the order of the index. -/
def rrs : Run (List Rr) := entry.index.mapM entry.rrAt

/-- What the records say. -/
def records : Run (List RrData) := entry.index.mapM fun place => do
  let rr ← entry.rrAt place
  rr.data entry.span

/-- The loop of `getSoa`. -/
def hasSoaFrom : List Index → Run Bool
  | [] => .ok false
  | place :: rest => do
      let rr ← entry.rrAt place
      let type ← rr.type entry.span
      if type = RrType.soa.toNat then .ok true else hasSoaFrom rest

/-- `getSoa`: if there is a SOA, the first record is returned. -/
def getSoa : Run Rr := do
  assert (entry.span ≠ [])
  let flags ← entry.flags
  assert flags.soa
  match entry.index with
  | [] => .aborted
  | first :: rest => do
      let found ← entry.hasSoaFrom (first :: rest)
      throwIf (!found) "Entry::getSoa(): Found no soa!"
      let rr ← entry.rrAt first
      Rr.parse entry.span rr.offset false

end Entry

end Wire

end Nsblast
