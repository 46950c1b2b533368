import Nsblast.Storage.EntryEncoding

/-!
# An entry is read as it was stored

A finished buffer has the records of the builder behind a header that was written last,
and the index in its sorted order behind them. `Entry` finds the same records there, in
an order that `std::sort` may have left, with their flags, the tenant and the length of
the zone's name. The sort puts a SOA first, which is what `getSoa` returns.

The index is copied as if it were one piece of memory, which it is for up to 128 records
only. A root name that is given with its dot fails an assertion.
-/

namespace Nsblast

open Buffer Labels List Wire.Entry Run
open StorageBuilder (adding createRr finishRr newRr sharesName withoutDot)

/-- What `Entry` finds in a finished buffer. -/
structure Shows (bytes : Buffer) (index : List Index) (entry : Entry) : Prop where
  small : bytes.length < 2 ^ 64
  filled : bytes ≠ []
  constructed : construct bytes = .ok ⟨bytes, entry.rrs.length, index⟩
  flags : Wire.Entry.flags ⟨bytes, entry.rrs.length, index⟩ = .ok (flagsOf entry.tenantId entry.rrs)
  zonelen : Wire.Entry.zonelen ⟨bytes, entry.rrs.length, index⟩ = .ok entry.zoneLen
  tenantId : Wire.Entry.tenantId ⟨bytes, entry.rrs.length, index⟩ = .ok entry.tenantId
  placed : List.Forall₂ (Shown bytes) index entry.rrs

section index

theorem read_behind (front back : Buffer) (location : Nat) :
    Buffer.read (front ++ back) (front.length + location) = Buffer.read back location := by
  rw [Buffer.read, getElem?_append_right (Nat.le_add_right _ _), Nat.add_sub_cancel_left]
  rfl

/-- An index at the end of an entry is read by itself. -/
theorem readIndex_behind (front back : Buffer) (count location : Nat) :
    readIndex (front ++ back) (front.length + location) count =
      readIndex back location count := by
  induction count generalizing location with
  | zero => rfl
  | succ count ih =>
    simp only [readIndex, read16, Nat.add_assoc, read_behind, ih]

/-- The bytes of an index, in network order. -/
def indexBytes (index : List Index) : List UInt8 :=
  index.flatMap fun place => be16 place.type ++ be16 place.offset

theorem length_indexBytes (index : List Index) : (indexBytes index).length = 4 * index.length := by
  induction index with
  | nil => rfl
  | cons place rest ih =>
    rw [indexBytes, flatMap_cons, length_append]
    simp only [indexBytes] at ih
    rw [ih]
    simp only [length_append, length_bigEndian, length_cons]
    omega

/-- An index is read as it was written. -/
theorem readIndex_indexBytes {index : List Index}
    (small : ∀ place ∈ index, place.type < 65536 ∧ place.offset < 65536) :
    readIndex (indexBytes index) 0 index.length = .ok index := by
  induction index with
  | nil => rfl
  | cons place rest ih =>
    obtain ⟨type, offset⟩ := place
    obtain ⟨lowType, lowOffset⟩ := small _ mem_cons_self
    have later := readIndex_behind (be16 type ++ be16 offset) (indexBytes rest) rest.length 0
    rw [ih fun other member => small other (mem_cons_of_mem _ member)] at later
    have isType : read16 (indexBytes (⟨type, offset⟩ :: rest)) 0 = .ok type :=
      congrArg ok (readBigEndian_fits 2 lowType)
    have isOffset : read16 (indexBytes (⟨type, offset⟩ :: rest)) 2 = .ok offset :=
      congrArg ok (readBigEndian_fits 2 lowOffset)
    have isRest : readIndex (indexBytes (⟨type, offset⟩ :: rest)) 4 rest.length =
        .ok rest := later
    rw [length_cons, readIndex, isType, bind_ok, isOffset, bind_ok, isRest, bind_ok]

end index

section finish

variable {buffer : Buffer}

/-- The elements of an index fit into sixteen bits. -/
theorem places_small {index : List Index} {rrs : List StoredRr}
    (placed : List.Forall₂ (Shown buffer) index rrs) (small : buffer.length ≤ 65535) :
    ∀ place ∈ index, place.type < 65536 ∧ place.offset < 65536 := by
  induction placed with
  | nil => exact fun _ none => nomatch none
  | @cons place rr index rrs shown _ ih =>
    obtain ⟨isType, size, here⟩ := shown
    have inside := here.inside
    have low := rr.type.toNat_lt
    exact forall_mem_cons.mpr ⟨⟨by omega, by omega⟩, ih⟩

variable {wire : Wire.StorageBuilder} {builder : StorageBuilder}

/-- The bytes of a finished entry with the index in some order. -/
def finished (wire : Wire.StorageBuilder) (index : List Index) : Buffer :=
  wire.header ++ wire.buffer.drop bufferHeaderLen ++ indexBytes index

theorem finished_grows (wire : Wire.StorageBuilder) (index : List Index) :
    GrownBehind bufferHeaderLen wire.buffer (finished wire index) := by
  refine ⟨indexBytes index, ?_⟩
  rw [finished, append_assoc]
  rfl

theorem length_finished {wire : Wire.StorageBuilder} (index : List Index)
    (long : bufferHeaderLen ≤ wire.buffer.length) :
    (finished wire index).length = wire.buffer.length + 4 * index.length := by
  rw [finished, length_append, length_append, length_indexBytes, length_drop]
  simp only [bufferHeaderLen] at long
  simp only [Wire.StorageBuilder.header, length_bigEndian, length_append, length_cons,
    length_nil, bufferHeaderLen]
  omega

/-- The header of a finished entry, byte by byte. -/
theorem finished_eq (wire : Wire.StorageBuilder) (index : List Index) :
    finished wire index = 1 :: wire.flags.toByte :: UInt8.ofNat (wire.index.length / 256) ::
      UInt8.ofNat wire.index.length :: UInt8.ofNat wire.labelLen :: UInt8.ofNat wire.zonelen ::
      UInt8.ofNat (wire.buffer.length / 256) :: UInt8.ofNat wire.buffer.length ::
      (wire.buffer.drop bufferHeaderLen ++ indexBytes index) := by
  simp [finished, Wire.StorageBuilder.header, bigEndian]

/-- What `Entry` finds when the index is in some order. -/
theorem Encodes.shows (encodes : Encodes wire builder) (index : List Index) (rrs : List StoredRr)
    (few : builder.rrs.length ≤ indexBlock) (zone : builder.zoneLen ≤ 255)
    (placed : List.Forall₂ (Shown wire.buffer) index rrs) (perm : rrs.Perm builder.rrs) :
    Shows (finished wire index) index ⟨builder.tenantId, builder.zoneLen, rrs⟩ := by
  have near := firstName_cases builder.tenantId
  have inside := firstName_le_size builder
  have size := encodes.size
  have long : bufferHeaderLen ≤ wire.buffer.length := by
    simp only [bufferHeaderLen]
    omega
  have count : wire.index.length = rrs.length := by
    rw [encodes.placed.length_eq, perm.length_eq]
  have sorted : index.length = rrs.length := placed.length_eq
  have same : rrs.length = builder.rrs.length := perm.length_eq
  have small := encodes.small
  simp only [indexBlock] at few
  have length := length_finished index long
  have header : bufferHeaderLen ≤ (finished wire index).length := by omega
  have filled : finished wire index ≠ [] :=
    ne_nil_of_length_pos (Nat.lt_of_lt_of_le (by decide) header)
  have grows := finished_grows wire index
  have isFlags : Wire.Entry.flags ⟨finished wire index, rrs.length, index⟩ =
      .ok (flagsOf builder.tenantId rrs) := by
    rw [Wire.Entry.flags, assert_of header, bind_ok, flagsOf_perm _ perm, ← encodes.flags,
      ← Flags_ofByte_toByte wire.flags]
    rfl
  refine ⟨by omega, filled, ?constructed, isFlags, ?zonelen, ?tenantId,
    placed.imp fun _ _ shown => shown.grown grows⟩
  case constructed =>
    have isCount : read16 (finished wire index) 2 = .ok wire.index.length :=
      congrArg ok (readBigEndian_fits 2 (by omega))
    have isOffset : read16 (finished wire index) 6 = .ok wire.buffer.length :=
      congrArg ok (readBigEndian_fits 2 (by omega))
    have isIndex : readIndex (finished wire index) wire.buffer.length wire.index.length =
        .ok index := by
      have behind := readIndex_behind (wire.header ++ wire.buffer.drop bufferHeaderLen)
        (indexBytes index) index.length 0
      have front : (wire.header ++ wire.buffer.drop bufferHeaderLen).length = wire.buffer.length := by
        have all := length
        rw [finished, length_append, length_indexBytes] at all
        omega
      rw [readIndex_indexBytes (places_small placed (by omega)), front] at behind
      rw [count, ← sorted]
      exact behind
    rw [construct, if_neg filled, assert_of header, bind_ok, isCount, bind_ok,
      isOffset, bind_ok, isIndex, bind_ok, count]
  case zonelen =>
    have isByte : (UInt8.ofNat wire.zonelen).toNat = builder.zoneLen := by
      rw [UInt8.toNat_ofNat', encodes.zonelen]
      omega
    rw [Wire.Entry.zonelen, assert_of header, bind_ok]
    exact congrArg ok isByte
  case tenantId =>
    rw [Wire.Entry.tenantId, isFlags, bind_ok]
    have stands := encodes.tenant.grown grows (Nat.le_refl _)
    cases isTenant : builder.tenantId with
    | none => rfl
    | some tid =>
      rw [isTenant, Option.elim_some] at stands
      have sixteen : tid.bytes.length = 16 := length_bigEndian
      have ends := stands.inside (ne_nil_of_length_pos (by omega))
      rw [sixteen] at ends
      have isRead := readRange_inside _ _ _ ends
      have part := stands.take_drop
      rw [sixteen] at part
      rw [part] at isRead
      simp only [flagsOf, Option.isSome_some, if_true]
      rw [assert_of ends, bind_ok, isRead, bind_ok, uuid_of_bytes]

/-- The index has the types of the records. -/
theorem types_alike {index : List Index} {rrs : List StoredRr}
    (placed : List.Forall₂ (Shown buffer) index rrs) :
    index.map Index.type = rrs.map fun rr => rr.type.toNat := by
  induction placed with
  | nil => rfl
  | cons shown _ ih => rw [map_cons, map_cons, ih, shown.1]

/-- The index is sorted as the records are. -/
theorem sorted_alike (sorter : Sorter Wire.placeLess) {index : List Index}
    {rrs : List StoredRr} (placed : List.Forall₂ (Shown buffer) index rrs) :
    ∃ order : Sorter indexLess, List.Forall₂ (Shown buffer) (sorter.sort index) (order.sort rrs) := by
  obtain ⟨sorted, shown, perm⟩ := perm_comp_forall₂ (sorter.perm index) placed
  have ordered : sorted.Pairwise fun first second => indexLess second first = false := by
    have places : ((sorter.sort index).map Index.type).Pairwise fun first second =>
        (compare (sortingTable (UInt16.ofNat second)) (sortingTable (UInt16.ofNat first)) == .lt) =
          false :=
      pairwise_map.mpr (sorter.sorted index)
    rw [types_alike shown] at places
    refine (pairwise_map.mp places).imp fun {first second} before => ?_
    rwa [UInt16.ofNat_toNat, UInt16.ofNat_toNat] at before
  refine ⟨insertionIndex.leaving rrs sorted perm ordered, ?_⟩
  simpa [Sorter.leaving] using shown

/-- Finishing is the same on both levels, with some order that the sort may leave. -/
theorem Encodes.finish (encodes : Encodes wire builder) (sorter : Sorter Wire.placeLess)
    (zone : builder.zoneLen ≤ 255) :
    ∃ order : Sorter indexLess, Rel (fun bytes entry => ∃ index, Shows bytes index entry)
      (wire.finish sorter) (builder.finish order) := by
  obtain ⟨order, sorted⟩ := sorted_alike sorter encodes.placed
  have near := firstName_cases builder.tenantId
  have inside := firstName_le_size builder
  have size := encodes.size
  have long : ¬ wire.buffer.length < bufferHeaderLen := by
    simp only [bufferHeaderLen]
    omega
  have count : wire.index.length = builder.rrs.length := encodes.placed.length_eq
  have types : (∀ place ∈ wire.index, place.type < 255) ↔ ∀ rr ∈ builder.rrs, rr.type.toNat < 255 := by
    rw [← forall_mem_map (P := (· < 255)), types_alike encodes.placed, forall_mem_map]
  have opened : assert (!wire.finished) = .ok () := by
    rw [encodes.opened]
    rfl
  refine ⟨order, ?_⟩
  rw [Wire.StorageBuilder.finish, StorageBuilder.finish, opened, bind_ok, throwIf_of_not long,
    bind_ok]
  simp only [types, encodes.sort, count]
  refine Rel.after _ fun _ _ => ?_
  split
  · rename_i few
    cases builder.sort with
    | true => exact .ok ⟨_, encodes.shows _ _ few zone sorted (order.perm _)⟩
    | false => exact .ok ⟨_, encodes.shows _ _ few zone encodes.placed (.refl _)⟩
  · exact .outOfBounds

end finish

section reading

variable {bytes : Buffer} {index : List Index} {entry : Entry}

/-- A record is found where the index says it is. -/
theorem rrAt_placed (entry : Wire.Entry) (place : Index) {data : RrData} {floor size : Nat}
    (small : entry.span.length < 2 ^ 64) (isType : place.type = data.type)
    (placed : Placed entry.span floor place.offset false data size) :
    ∃ rr, entry.rrAt place = .ok rr ∧ Rr.parse entry.span rr.offset false = .ok rr ∧
      rr.data entry.span = .ok data := by
  have inside := placed.inside
  obtain ⟨rr, parsed, _, reads⟩ := placed.parse small
  refine ⟨rr, ?_, by rw [Rr.parse_offset parsed, parsed], reads⟩
  rw [Wire.Entry.rrAt, assert_of (by omega), bind_ok, parsed, bind_ok, (data_fields reads).1,
    bind_ok, assert_of isType.symm, bind_ok]

/-- The records are found in the order of the index. -/
theorem Shows.records (shown : Shows bytes index entry) :
    Wire.Entry.records ⟨bytes, entry.rrs.length, index⟩ = .ok (entry.rrs.map StoredRr.data) := by
  refine mapM_of_forall₂ _ (forall₂_map_right_iff.mpr (shown.placed.imp ?_))
  rintro place rr ⟨isType, size, placed⟩
  obtain ⟨found, isRr, _, reads⟩ := rrAt_placed ⟨bytes, entry.rrs.length, index⟩ place
    shown.small isType placed
  rw [isRr, bind_ok, reads]

/-- If the first record is a SOA, it is the one that `getSoa` returns. -/
theorem Shows.getSoa (shown : Shows bytes index entry) {first : StoredRr} {rest : List StoredRr}
    (isRrs : entry.rrs = first :: rest) (isSoa : first.type = RrType.soa) :
    ∃ rr, Wire.Entry.getSoa ⟨bytes, entry.rrs.length, index⟩ = .ok rr ∧
      rr.data bytes = .ok first.data := by
  have placed := shown.placed
  rw [isRrs] at placed
  obtain _ | @⟨place, _, places, _, ⟨isType, size, placed⟩, _⟩ := placed
  obtain ⟨rr, isRr, parsed, reads⟩ := rrAt_placed ⟨bytes, entry.rrs.length, place :: places⟩
    place shown.small isType placed
  have soaType : rr.type bytes = .ok RrType.soa.toNat := by
    rw [(data_fields reads).1, ← isSoa]
    rfl
  have found : hasSoaFrom ⟨bytes, entry.rrs.length, place :: places⟩ (place :: places) =
      .ok true := by
    rw [hasSoaFrom, isRr, bind_ok, soaType, bind_ok, if_pos rfl]
  have flagged : (flagsOf entry.tenantId entry.rrs).soa = true := by
    simp [flagsOf, isRrs, isSoa]
  refine ⟨rr, ?_, reads⟩
  have asserted : assert true = .ok () := rfl
  have passed : throwIf (!true) "Entry::getSoa(): Found no soa!" = .ok () := rfl
  rw [Wire.Entry.getSoa, assert_of shown.filled, bind_ok, shown.flags, bind_ok, flagged,
    asserted, bind_ok]
  simp only
  rw [found, bind_ok, passed, bind_ok, isRr, bind_ok, parsed]

end reading

section store

/-- The arguments of a call of `createRr`, apart from the name. -/
structure Creation where
  type : UInt16
  ttl : UInt32
  rdata : List UInt8
  deriving DecidableEq, Repr

/-- A fresh builder with its tenant, the calls of `createRr` with one name, and `finish`. -/
def store (sorter : Sorter Wire.placeLess) (tenantId : Option Uuid) (zonelen : Nat) (fqdn : Name)
    (creations : List Creation) : Run Buffer := do
  let fresh : Wire.StorageBuilder := {}
  let owned ← tenantId.elim (.ok fresh) fresh.setTenantId
  let placed ← owned.setZoneLen zonelen
  let filled ← creations.foldlM
    (fun builder creation => builder.createRr fqdn creation.type creation.ttl creation.rdata true) placed
  filled.finish sorter

/-- What a record says that was created. -/
def Creation.data (fqdn : Name) (creation : Creation) : RrData :=
  ⟨labelsOf (withoutDot fqdn), creation.type.toNat, classIn.toNat,
    min creation.ttl.toNat (2 ^ 31 - 1), creation.rdata⟩

/-- The bytes of the entry, the index included. -/
def storedSize (tenantId : Option Uuid) (fqdn : Name) (creations : List Creation) : Nat :=
  firstName tenantId + (wireName (withoutDot fqdn)).length + 2 * (creations.length - 1) +
    (creations.map fun creation => 10 + creation.rdata.length).sum + 4 * creations.length

/-- The groups of types that come first, in their order. -/
def typeGroups : List Nat := [RrType.soa, RrType.ns, RrType.a, RrType.aaaa, RrType.cname, RrType.mx,
  RrType.txt].map UInt16.toNat

/-- An entry is read as it was stored. -/
structure RoundTrips (tenantId : Option Uuid) (zonelen : Nat) (fqdn : Name)
    (creations : List Creation) (entry : Wire.Entry) (records : List RrData) (flags : Wire.Flags) :
    Prop where
  read : entry.records = .ok records
  same : records.Perm (creations.map (Creation.data fqdn))
  groups : records.Pairwise fun first second =>
    typeGroups.idxOf first.type ≤ typeGroups.idxOf second.type
  flagged : entry.flags = .ok flags
  soa : flags.soa = true ↔ ∃ creation ∈ creations, creation.type = RrType.soa
  ns : flags.ns = true ↔ ∃ creation ∈ creations, creation.type = RrType.ns
  a : flags.a = true ↔ ∃ creation ∈ creations, creation.type = RrType.a
  aaaa : flags.aaaa = true ↔ ∃ creation ∈ creations, creation.type = RrType.aaaa
  cname : flags.cname = true ↔ ∃ creation ∈ creations, creation.type = RrType.cname
  txt : flags.txt = true ↔ ∃ creation ∈ creations, creation.type = RrType.txt
  count : entry.count = creations.length
  tenantId : entry.tenantId = .ok tenantId
  zonelen : entry.zonelen = .ok zonelen
  getSoa : ∀ creation ∈ creations, creation.type = RrType.soa →
    ∃ rr, entry.getSoa = .ok rr ∧ rr.data entry.span = .ok (creation.data fqdn)

/-- The records that are created one after the other. -/
def createdRrs (fqdn : Name) : List Creation → List StoredRr
  | [] => []
  | first :: rest =>
      newRr (withoutDot fqdn) false first.type first.ttl first.rdata ::
        rest.map fun creation => newRr (withoutDot fqdn) true creation.type
          creation.ttl creation.rdata

variable {zonelen : Nat} {builder : StorageBuilder} {rrs : List StoredRr} (fqdn : Name)

/-- A fresh builder encodes no records. -/
theorem begun_encodes (tenantId : Option Uuid) (zone : zonelen ≤ 255) :
    ∃ owned placed : Wire.StorageBuilder,
      tenantId.elim (.ok {}) ({} : Wire.StorageBuilder).setTenantId = .ok owned ∧
      owned.setZoneLen zonelen = .ok placed ∧ Encodes placed { tenantId, zoneLen := zonelen } := by
  have notLong : ¬ zonelen > 255 := by omega
  have behind := PartAt.at_end (1 :: replicate 7 0 : Buffer) (tenantId.elim [] Uuid.bytes) []
  rw [append_nil] at behind
  refine ⟨{ buffer := (1 :: replicate 7 0) ++ tenantId.elim [] Uuid.bytes,
            flags := { tenantId := tenantId.isSome } },
          { buffer := (1 :: replicate 7 0) ++ tenantId.elim [] Uuid.bytes,
            flags := { tenantId := tenantId.isSome }, zonelen }, by cases tenantId <;> rfl, ?_,
    ⟨rfl, rfl, rfl, ?_, ?_, behind, rfl, rfl, rfl, fun filled => absurd rfl filled,
      ⟨fun _ => nofun, fun _ => rfl⟩, .nil⟩⟩
  · rw [Wire.StorageBuilder.setZoneLen, throwIf_of_not notLong, bind_ok]
  · cases tenantId with
    | none => rfl
    | some tid =>
      have sixteen : tid.bytes.length = 16 := length_bigEndian
      simp [StorageBuilder.size, firstName, bufferHeaderLen, sixteen]
  · have near := firstName_cases tenantId
    simp only [StorageBuilder.size, map_nil, sum_nil]
    omega

/-- A record of a name that the entry has. -/
theorem createRr_more {creation : Creation} (filled : builder.rrs ≠ [])
    (single : creation.type = RrType.soa → ∀ rr ∈ builder.rrs, rr.type ≠ RrType.soa)
    (fits : builder.size + (12 + creation.rdata.length) ≤ 65535) :
    builder.createRr fqdn creation.type creation.ttl creation.rdata true =
      .ok (builder.adding (newRr builder.defaultLabels true creation.type creation.ttl
        creation.rdata)) := by
  have shares : builder.sharesName fqdn true = true := by simp [sharesName, filled]
  have size := size_adding builder (newRr builder.defaultLabels true creation.type
    creation.ttl creation.rdata)
  have added : (newRr builder.defaultLabels true creation.type creation.ttl
      creation.rdata).size = 12 + creation.rdata.length := by
    simp [StoredRr.size, StoredRr.labelLen, newRr]
  rw [createRr, if_pos shares, finishRr, throwIf_of_not, bind_ok, if_pos (by omega)]
  rintro ⟨isSoa, _, rr, member, has⟩
  exact single isSoa rr member has

variable {creations : List Creation}

/-- The records behind the first one. -/
theorem createAll_more (filled : builder.rrs ≠ [])
    (single : (builder.rrs.countP fun rr => rr.type == RrType.soa) +
      (creations.countP fun creation => creation.type == RrType.soa) ≤ 1)
    (fits : builder.size + (creations.map fun creation => 12 + creation.rdata.length).sum ≤ 65535) :
    creations.foldlM (fun builder creation => createRr builder fqdn creation.type
        creation.ttl creation.rdata true) builder =
      .ok { builder with
        rrs := builder.rrs ++ creations.map fun creation =>
          newRr builder.defaultLabels true creation.type creation.ttl creation.rdata } := by
  induction creations generalizing builder with
  | nil => simp
  | cons creation rest ih =>
    rw [map_cons, sum_cons] at fits
    rw [countP_cons] at single
    have first : creation.type = RrType.soa → ∀ rr ∈ builder.rrs, rr.type ≠ RrType.soa := by
      intro isSoa rr member has
      have positive := countP_pos_iff (p := fun rr : StoredRr => rr.type == RrType.soa) |>.mpr
        ⟨rr, member, beq_iff_eq.mpr has⟩
      rw [if_pos (beq_iff_eq.mpr isSoa)] at single
      omega
    rw [foldlM_cons, createRr_more fqdn filled first (by omega), bind_ok, ih]
    · rw [defaultLabels_adding _ filled]
      simp [adding]
    · simp [adding]
    · simp only [adding, countP_append, countP_singleton, newRr]
      omega
    · rw [size_adding]
      simp only [StoredRr.size, StoredRr.labelLen, newRr, if_true]
      omega

theorem sum_more (creations : List Creation) :
    (creations.map fun creation => 12 + creation.rdata.length).sum =
      2 * creations.length + (creations.map fun creation => 10 + creation.rdata.length).sum := by
  induction creations with
  | nil => rfl
  | cons creation rest ih =>
    rw [map_cons, map_cons, sum_cons, sum_cons, ih, length_cons]
    omega

/-- All records are created, if their name can be written and their bytes are few enough. -/
theorem createAll_creates (builder : StorageBuilder) (fresh : builder.rrs = []) (fqdn : Name)
    {creations : List Creation} (written : Name.Writable (withoutDot fqdn))
    (notDot : fqdn ≠ [0x2E]) (some : creations ≠ [])
    (single : (creations.countP fun creation => creation.type == RrType.soa) ≤ 1)
    (fits : storedSize builder.tenantId fqdn creations ≤ 65535 + 4 * creations.length) :
    creations.foldlM (fun builder creation => createRr builder fqdn creation.type
        creation.ttl creation.rdata true) builder =
      .ok { builder with rrs := createdRrs fqdn creations } := by
  cases creations with
  | nil => exact absurd rfl some
  | cons creation rest =>
    have more := sum_more rest
    simp only [storedSize, map_cons, sum_cons, length_cons, wireName_length] at fits
    rw [countP_cons] at single
    obtain ⟨first, isFirst⟩ : ∃ first, first = newRr (withoutDot fqdn)
      false creation.type creation.ttl creation.rdata := ⟨_, rfl⟩
    have size : ({ builder with rrs := [first] } : StorageBuilder).size =
        firstName builder.tenantId + first.size := by
      simp [StorageBuilder.size]
    have firstSize : first.size = (if withoutDot fqdn = [] then 1 else
        (withoutDot fqdn).length + 2) + 10 + creation.rdata.length := by
      rw [isFirst]
      rfl
    have isAdding : builder.adding first = { builder with rrs := [first] } := by
      rw [adding, fresh, nil_append]
    have created : builder.createRr fqdn creation.type creation.ttl creation.rdata true =
        .ok { builder with rrs := [first] } := by
      have alone : ¬ builder.sharesName fqdn true = true := by simp [sharesName, fresh]
      have none : ¬ (creation.type = RrType.soa ∧ builder.oneSoa ∧
          ∃ rr ∈ builder.rrs, rr.type = RrType.soa) := by
        rw [fresh]
        simp
      rw [createRr, if_neg alone, writeName_labelsLen.mpr ⟨written, notDot⟩, bind_ok,
        assert_of rfl, bind_ok, finishRr, throwIf_of_not none, bind_ok, ← isFirst, isAdding, if_pos]
      exact (Nat.le_of_eq size).trans (by omega)
    rw [foldlM_cons, created, bind_ok, createAll_more fqdn (by simp)]
    · rw [createdRrs, isFirst]
      rfl
    · simp only [countP_singleton, isFirst, newRr]
      omega
    · omega

/-- What a record says that `finishRr` writes. -/
theorem newRr_data (owner : Name) (pointer : Bool) (type : UInt16) (ttl : UInt32)
    (rdata : List UInt8) :
    (newRr owner pointer type ttl rdata).data =
      ⟨labelsOf owner, type.toNat, classIn.toNat, min ttl.toNat (2 ^ 31 - 1), rdata⟩ := by
  have sane : (sanitizeTtl ttl).toNat = min ttl.toNat (2 ^ 31 - 1) := by
    rw [sanitizeTtl]
    split
    · rename_i long
      rw [gt_iff_lt, UInt32.lt_iff_toNat_lt] at long
      simp only [ttlMax, UInt32.reduceToNat] at long ⊢
      omega
    · rename_i short
      rw [gt_iff_lt, UInt32.lt_iff_toNat_lt] at short
      simp only [ttlMax, UInt32.reduceToNat] at short
      omega
  rw [← sane]
  rfl

/-- The records say what was given. -/
theorem createdRrs_data (creations : List Creation) :
    (createdRrs fqdn creations).map StoredRr.data = creations.map (Creation.data fqdn) := by
  cases creations with
  | nil => rfl
  | cons first rest =>
    rw [createdRrs, map_cons, map_cons, newRr_data, map_map]
    exact congrArg _ (map_congr_left fun creation _ => newRr_data _ true _ _ _)

/-- The order of the sorting table is that of the groups. -/
theorem idxOf_typeGroups (type : UInt16) :
    typeGroups.idxOf type.toNat = min (sortingTable type - 1) 7 := by
  rw [sortingTable]
  split_ifs with soa ns a aaaa cname mx txt low
  · rw [soa]; rfl
  · rw [ns]; rfl
  · rw [a]; rfl
  · rw [aaaa]; rfl
  · rw [cname]; rfl
  · rw [mx]; rfl
  · rw [txt]; rfl
  all_goals
    refine idxOf_eq_length fun member => ?_
    obtain ⟨other, isOther, same⟩ := mem_map.mp member
    rw [UInt16.toNat_inj] at same
    simp_all

/-- A record comes before another one only if its group does. -/
theorem groups_of_sorted {first second : UInt16}
    (before : (compare (sortingTable second) (sortingTable first) == .lt) = false) :
    typeGroups.idxOf first.toNat ≤ typeGroups.idxOf second.toNat := by
  rw [beq_eq_false_iff_ne, Ne, compare_lt_iff_lt] at before
  rw [idxOf_typeGroups, idxOf_typeGroups]
  omega

/-- Only the SOA has the first place of the table. -/
theorem soa_of_sortingTable {type : UInt16} (low : sortingTable type ≤ 1) : type = RrType.soa := by
  rw [sortingTable] at low
  split_ifs at low with soa
  all_goals first | exact soa | omega

theorem createdRrs_types (creations : List Creation) :
    (createdRrs fqdn creations).map (fun rr => rr.type) = creations.map fun creation => creation.type := by
  cases creations with
  | nil => rfl
  | cons first rest => simp [createdRrs, newRr]

theorem length_createdRrs (creations : List Creation) :
    (createdRrs fqdn creations).length = creations.length := by
  simpa using congrArg List.length (createdRrs_types fqdn creations)

/-- Finishing the created records. -/
theorem finish_created (order : Sorter indexLess) (tenantId : Option Uuid) (zonelen : Nat)
    (fqdn : Name) (types : ∀ creation ∈ creations, creation.type.toNat < 255) :
    StorageBuilder.finish order { tenantId, zoneLen := zonelen, rrs := createdRrs fqdn creations } =
      if creations.length ≤ indexBlock then
        .ok ⟨tenantId, zonelen, order.sort (createdRrs fqdn creations)⟩
      else .outOfBounds := by
  have all : ∀ rr ∈ createdRrs fqdn creations, rr.type.toNat < 255 := by
    intro rr member
    have isType := mem_map_of_mem member (f := fun rr => rr.type)
    rw [createdRrs_types] at isType
    obtain ⟨creation, isCreation, same⟩ := mem_map.mp isType
    rw [← same]
    exact types creation isCreation
  rw [StorageBuilder.finish, assert_of fun _ _ => all, bind_ok]
  simp [length_createdRrs]

/-- The root with its dot is not created. -/
theorem createRr_dot (creation : Creation) (fresh : builder.rrs = []) :
    builder.createRr [0x2E] creation.type creation.ttl creation.rdata true = .aborted := by
  rw [createRr, if_neg (by simp [sharesName, fresh])]
  rfl

/-- The flag of a type is set if a record of the type was created. -/
theorem any_created {fqdn : Name} (perm : rrs.Perm (createdRrs fqdn creations)) (type : UInt16) :
    (rrs.any fun rr => rr.type == type) = true ↔ ∃ creation ∈ creations, creation.type = type := by
  have types : type ∈ rrs.map (fun rr => rr.type) ↔
      type ∈ creations.map fun creation => creation.type := by
    rw [← createdRrs_types fqdn]
    exact (perm.map _).mem_iff
  simpa [mem_map] using types

/-- A list with at most one element of a kind. -/
theorem eq_of_countP {α : Type} {kind : α → Bool} {elements : List α}
    (single : elements.countP kind ≤ 1) {first second : α} (isFirst : first ∈ elements)
    (isSecond : second ∈ elements) (firstKind : kind first = true)
    (secondKind : kind second = true) : first = second := by
  rw [countP_eq_length_filter] at single
  have memFirst := mem_filter.mpr ⟨isFirst, firstKind⟩
  have memSecond := mem_filter.mpr ⟨isSecond, secondKind⟩
  match filtered : elements.filter kind with
  | [] =>
    rw [filtered] at memFirst
    cases memFirst
  | [only] =>
    rw [filtered, mem_singleton] at memFirst memSecond
    rw [memFirst, memSecond]
  | _ :: _ :: _ =>
    rw [filtered] at single
    simp at single

/-- What is shown of the created records is what was given. -/
theorem Shows.roundTrips {tenantId : Option Uuid} {fqdn : Name} {bytes : Buffer}
    {index : List Index} (shown : Shows bytes index ⟨tenantId, zonelen, rrs⟩)
    (perm : rrs.Perm (createdRrs fqdn creations))
    (sorted : rrs.Pairwise fun first second => indexLess second first = false)
    (single : (creations.countP fun creation => creation.type == RrType.soa) ≤ 1) :
    RoundTrips tenantId zonelen fqdn creations ⟨bytes, rrs.length, index⟩ (rrs.map StoredRr.data)
      (flagsOf tenantId rrs) := by
  have same : (rrs.map StoredRr.data).Perm (creations.map (Creation.data fqdn)) := by
    rw [← createdRrs_data]
    exact perm.map _
  refine ⟨shown.records, same, ?groups, shown.flags, any_created perm _, any_created perm _,
    any_created perm _, any_created perm _, any_created perm _, any_created perm _, ?count,
    shown.tenantId, shown.zonelen, ?getSoa⟩
  case groups =>
    exact pairwise_map.mpr (sorted.imp fun before => groups_of_sorted before)
  case count => simpa using same.length_eq
  case getSoa =>
    intro creation member isSoa
    obtain ⟨rr, isRr, rrSoa⟩ : ∃ rr ∈ rrs, rr.type = RrType.soa := by
      simpa using (any_created perm RrType.soa).mpr ⟨creation, member, isSoa⟩
    obtain ⟨first, rest, rfl⟩ := exists_cons_of_ne_nil (ne_nil_of_mem isRr)
    have firstSoa : first.type = RrType.soa := by
      rcases mem_cons.mp isRr with rfl | later
      · exact rrSoa
      · have before := (pairwise_cons.mp sorted).1 rr later
        rw [indexLess, beq_eq_false_iff_ne, Ne, compare_lt_iff_lt, rrSoa] at before
        exact soa_of_sortingTable (Nat.not_lt.mp before)
    obtain ⟨found, returned, reads⟩ := shown.getSoa rfl firstSoa
    obtain ⟨other, isOther, sameData⟩ :=
      mem_map.mp (same.subset (mem_map_of_mem mem_cons_self))
    have otherSoa : other.type = RrType.soa := by
      rw [← UInt16.toNat_inj, ← firstSoa]
      exact congrArg RrData.type sameData
    rw [eq_of_countP single isOther member (beq_iff_eq.mpr otherSoa) (beq_iff_eq.mpr isSoa)]
      at sameData
    exact ⟨found, returned, by rw [sameData]; exact reads⟩

/-- What is stored is read again, exactly if the index is one piece of memory and the name
is not the root with its dot. -/
theorem store_round_trips_iff (sorter : Sorter Wire.placeLess) (tenantId : Option Uuid)
    (zonelen : Nat) (fqdn : Name) (creations : List Creation)
    (written : Name.Writable (withoutDot fqdn)) (some : creations ≠ [])
    (types : ∀ creation ∈ creations, creation.type.toNat < 255)
    (single : (creations.countP fun creation => creation.type == RrType.soa) ≤ 1)
    (fits : storedSize tenantId fqdn creations < 65536) (zone : zonelen ≤ 255) :
    (∃ bytes entry records flags, store sorter tenantId zonelen fqdn creations = .ok bytes ∧
      construct bytes = .ok entry ∧
      RoundTrips tenantId zonelen fqdn creations entry records flags) ↔
    creations.length ≤ indexBlock ∧ fqdn ≠ [0x2E] := by
  obtain ⟨owned, placed, isOwned, isPlaced, encodes⟩ := begun_encodes tenantId zone
  have same := Rel.foldlM creations encodes (fun _ _ creation encodes =>
    encodes.createRr fqdn creation.type creation.ttl creation.rdata true)
  have isStore : store sorter tenantId zonelen fqdn creations = creations.foldlM
      (fun builder creation => Wire.StorageBuilder.createRr builder fqdn creation.type creation.ttl
        creation.rdata true) placed >>= fun filled => filled.finish sorter := by
    rw [store, isOwned, bind_ok, isPlaced, bind_ok]
  by_cases dot : fqdn = [0x2E]
  · refine ⟨?_, fun holds => absurd dot holds.2⟩
    rintro ⟨bytes, _, _, _, stored, _⟩
    have aborts : creations.foldlM (fun builder creation => createRr builder fqdn
        creation.type creation.ttl creation.rdata true) { tenantId, zoneLen := zonelen } = .aborted := by
      obtain ⟨creation, rest, rfl⟩ := exists_cons_of_ne_nil some
      rw [foldlM_cons, dot, createRr_dot creation rfl, bind_aborted]
    rw [aborts] at same
    rw [isStore, same.eq_aborted] at stored
    cases stored
  have created := createAll_creates { tenantId, zoneLen := zonelen } rfl fqdn written dot some
    single (by simp only; omega)
  rw [created] at same
  obtain ⟨wire, filled, encoded⟩ := same.returned
  rw [filled, bind_ok] at isStore
  obtain ⟨order, alike⟩ := encoded.finish sorter zone
  rw [finish_created order tenantId zonelen fqdn types, ← isStore] at alike
  by_cases short : creations.length ≤ indexBlock
  · rw [if_pos short] at alike
    obtain ⟨bytes, stored, index, shown⟩ := alike.returned
    exact ⟨fun _ => ⟨short, dot⟩, fun _ => ⟨bytes, _, _, _, stored, shown.constructed,
      shown.roundTrips (order.perm _) (order.sorted _) single⟩⟩
  · rw [if_neg short] at alike
    refine ⟨?_, fun holds => absurd holds.1 short⟩
    rintro ⟨bytes, _, _, _, stored, _⟩
    rw [stored] at alike
    cases alike

/-- `std::sort` of the index as insertion sort, to run the model. -/
def insertionPlaces : Sorter Wire.placeLess :=
  Sorter.byKey compare fun place : Index => sortingTable (UInt16.ofNat place.type)

/-- A text, a SOA and an address of the name `A.b`. -/
def sampleCreations : List Creation :=
  [⟨RrType.txt, 60, [1, 0x78]⟩, ⟨RrType.soa, 0xFFFFFFFF, [0, 0] ++ replicate 20 7⟩,
    ⟨RrType.a, 300, [1, 2, 3, 4]⟩]

/-- They are read again, the SOA first. -/
theorem sample_round_trip : ∃ bytes entry records flags,
    store insertionPlaces (some 5) 1 [0x41, 0x2E, 0x62] sampleCreations = .ok bytes ∧
      construct bytes = .ok entry ∧
      RoundTrips (some 5) 1 [0x41, 0x2E, 0x62] sampleCreations entry records flags :=
  (store_round_trips_iff insertionPlaces (some 5) 1 [0x41, 0x2E, 0x62] sampleCreations (by decide +kernel)
    (by decide) (by decide) (by decide) (by decide +kernel) (by decide)).mpr ⟨by decide, by decide⟩

/-- Addresses in such a number that the index has a second block. -/
def manyAddresses : List Creation := replicate 129 ⟨RrType.a, 60, [1, 2, 3, 4]⟩

/-- 129 addresses take few bytes, but the copy of their index leaves its memory. -/
theorem many_addresses_not_stored :
    Name.Writable (withoutDot [0x61]) ∧ manyAddresses ≠ [] ∧
      (∀ creation ∈ manyAddresses, creation.type.toNat < 255) ∧
      (manyAddresses.countP fun creation => creation.type == RrType.soa) ≤ 1 ∧
      storedSize none [0x61] manyAddresses < 65536 ∧
      store insertionPlaces none 0 [0x61] manyAddresses = .outOfBounds ∧
      ¬ ∃ bytes entry records flags, store insertionPlaces none 0 [0x61] manyAddresses = .ok bytes ∧
        construct bytes = .ok entry ∧
        RoundTrips none 0 [0x61] manyAddresses entry records flags := by
  have refused : store insertionPlaces none 0 [0x61] manyAddresses = .outOfBounds := by
    obtain ⟨owned, placed, isOwned, isPlaced, encodes⟩ := begun_encodes none (Nat.zero_le 255)
    have same := Rel.foldlM manyAddresses encodes fun _ _ creation encodes =>
      encodes.createRr [0x61] creation.type creation.ttl creation.rdata true
    rw [createAll_creates _ rfl [0x61] (by decide +kernel) (by decide) (by decide)
      (by decide +kernel) (by decide +kernel)] at same
    obtain ⟨wire, filled, encoded⟩ := same.returned
    obtain ⟨order, alike⟩ := encoded.finish insertionPlaces (Nat.zero_le 255)
    rw [finish_created order none 0 [0x61] (by decide +kernel), if_neg (by decide +kernel)] at alike
    rw [store, isOwned, bind_ok, isPlaced, bind_ok, filled, bind_ok]
    generalize wire.finish insertionPlaces = finished at alike ⊢
    cases alike
    rfl
  refine ⟨by decide +kernel, by decide, by decide +kernel, by decide +kernel, by decide +kernel,
    refused, ?_⟩
  rintro ⟨bytes, _, _, _, stored, _⟩
  rw [refused] at stored
  cases stored

end store

end Nsblast
