import Nsblast.Storage.EntryBytes

/-!
# The bytes of a builder are its records

Two models of a builder are compared: the bytes and the index that `StorageBuilder` keeps,
and the records of the model that the rest of the development uses. Each record is placed
where the index says it is, and the first name stands behind the header and the tenant.
Creating a record keeps that, and fails on both levels alike: for a name that cannot be
written, a second SOA, or a buffer that outgrows its offsets.
-/

namespace Nsblast

open List hiding beq_eq_decide
open Buffer Labels StorageBuilder Run GrownBehind

/-- What a stored record says. -/
def StoredRr.data (rr : StoredRr) : RrData :=
  ⟨labelsOf rr.owner, rr.type.toNat, rr.clas.toNat, rr.ttl.toNat, rr.rdata⟩

variable {position value : Nat} {labels : List Text}

section bytes

theorem length_dataSpanAfterLabel (body : Body) :
    body.dataSpanAfterLabel.length = 10 + body.rdata.length := by
  simp only [Body.dataSpanAfterLabel, length_append, length_bigEndian]

/-- The bytes behind the name of a stored record state how long they are. -/
theorem fields_body {body : Body} (small : body.rdata.length < 65536) :
    Fields false body.dataSpanAfterLabel := by
  have length := length_dataSpanAfterLabel body
  simp only [Fields, Bool.false_eq_true, if_false, length]
  refine ⟨by omega, ?_⟩
  rw [get16bValueAt, getValueAt_accepted _ (by omega) (by simp only [whole]; omega)]
  have value := readBigEndian_fits 2 small
  rw [Nat.add_sub_cancel_left]
  exact congrArg ok value

/-- They say what was stored. -/
theorem fieldsData_body (labels : List Text) (body : Body) :
    fieldsData labels false body.dataSpanAfterLabel =
      .ok ⟨labels, body.type.toNat, body.clas.toNat, body.ttl.toNat, body.rdata⟩ := by
  have length := length_dataSpanAfterLabel body
  have type : get16bValueAt body.dataSpanAfterLabel (whole body.dataSpanAfterLabel) 0 =
      .ok body.type.toNat := by
    rw [get16bValueAt, getValueAt_accepted _ (by omega) (by simp only [whole]; omega)]
    exact congrArg ok (readBigEndian_fits 2 body.type.toNat_lt)
  have clas : get16bValueAt body.dataSpanAfterLabel (whole body.dataSpanAfterLabel) 2 =
      .ok body.clas.toNat := by
    rw [get16bValueAt, getValueAt_accepted _ (by omega) (by simp only [whole]; omega)]
    exact congrArg ok (readBigEndian_fits 2 body.clas.toNat_lt)
  have ttl : get32bValueAt body.dataSpanAfterLabel (whole body.dataSpanAfterLabel) 4 =
      .ok body.ttl.toNat := by
    rw [get32bValueAt, getValueAt_accepted _ (by omega) (by simp only [whole]; omega)]
    exact congrArg ok (readBigEndian_fits 4 body.ttl.toNat_lt)
  rw [fieldsData, type, bind_ok, clas, bind_ok, if_neg Bool.false_ne_true, ttl, bind_ok,
    if_neg Bool.false_ne_true]
  rfl

/-- A uuid is read back from its bytes. -/
theorem uuid_of_bytes (uuid : Uuid) : BitVec.ofNat 128 (readBigEndian uuid.bytes) = uuid := by
  have small : uuid.toNat < 256 ^ 16 := uuid.isLt
  rw [Uuid.bytes, readBigEndian_fits 16 small, BitVec.ofNat_toNat, BitVec.setWidth_eq]

theorem Flags_ofByte_toByte (flags : Wire.Flags) : Wire.Flags.ofByte flags.toByte = flags := by
  obtain ⟨soa, ns, a, aaaa, cname, txt, tenantId⟩ := flags
  cases soa <;> cases ns <;> cases a <;> cases aaaa <;> cases cname <;> cases txt <;>
    cases tenantId <;> rfl

end bytes

variable {name : Name}

section names

variable {buffer : Buffer} {floor : Nat}

/-- The labels of a name that can be written. -/
structure Written (name : Name) (labels : List Text) : Prop where
  isName : labelsOf name = labels ++ [[]]
  filled : ∀ text ∈ labels, text ≠ [] ∧ text.length ≤ 63
  size : textSize 0 labels ≤ 254
  joined : [0x2E].intercalate labels = name

theorem textSize_le (labels : List Text) (size : Nat) :
    textSize size labels ≤ size + (labels.map fun label => label.length + 1).sum := by
  induction labels generalizing size with
  | nil => exact Nat.le_refl size
  | cons text rest ih =>
    have later := ih ((if size = 0 then 0 else size + 1) + text.length)
    rw [textSize, map_cons, sum_cons]
    split at later <;> split <;> omega

theorem writeName_written (written : Name.Writable name) : ∃ labels, Written name labels := by
  by_cases empty : name = []
  · subst empty
    exact ⟨[], rfl, nofun, by decide, rfl⟩
  · have segments := writeName_eq_ok written empty
    have short : name.length + 2 < 256 := by
      by_contra long
      rw [Name.Writable, writeName, throwIf_of (by omega), bind_thrown] at written
      cases written
    have size := textSize_le (name.splitOn 0x2E) 0
    rw [splitOn_length] at size
    exact ⟨name.splitOn 0x2E, by rw [labelsOf, if_neg empty], segments, by omega,
      intercalate_splitOn _⟩

/-- A name that is written out stands where it was written. -/
theorem Written.spelled (written : Written name labels) (behind : floor ≤ buffer.length)
    (near : buffer.length + (wireName name).length ≤ 65535) :
    Spelled (buffer ++ wireName name) floor buffer.length buffer.length labels
      (wireName name).length := by
  have isName : wireName name = labels.flatMap labelBytes ++ [0] := by
    rw [wireName, written.isName, flatMap_append]
    rfl
  rw [isName, length_append, length_singleton] at near
  have stored := PartAt.at_end buffer (labels.flatMap labelBytes ++ [0]) []
  rw [append_nil] at stored
  have tail := Spelled.root buffer.length (buffer.length + (labels.flatMap labelBytes).length)
    (by omega : floor ≤ _) (by omega) stored.right
  have whole := WriteLabels.spelled_labels written.filled behind
    stored.left tail
  rw [append_nil] at whole
  rwa [isName, length_append, length_singleton]

/-- The labels with dots between them, as the loop of `string` adds them. -/
theorem join_sites {views : List View} (text : Text) (sites : Sites buffer floor labels views)
    (filled : ∀ label ∈ labels, label ≠ []) :
    join buffer views text =
      .ok (if text = [] then [0x2E].intercalate labels else [0x2E].intercalate (text :: labels)) := by
  induction labels generalizing views text with
  | nil =>
    rcases views with _ | ⟨root, _ | _⟩
    · cases sites
    · simp only [join, sites.1, if_true]
      split
      · rename_i empty
        rw [empty]
        rfl
      · simp [intercalate]
    · cases sites
  | cons label rest ih =>
    rcases views with _ | ⟨view, views⟩
    · cases sites
    · obtain ⟨length, stored, _, _, more⟩ := sites
      have notEmpty := filled label mem_cons_self
      have ended := stored.inside notEmpty
      have isRead : readRange buffer view.start view.length = .ok label := by
        rw [length, readRange_inside _ _ _ ended, stored.take_drop]
      have positive : view.length ≠ 0 := by
        rw [length]
        exact fun none => notEmpty (length_eq_zero_iff.mp none)
      rw [join, if_neg positive, isRead, bind_ok,
        ih _ more fun other member => filled other (mem_cons_of_mem label member),
        if_neg (by simp [notEmpty])]
      split
      · rename_i empty
        rw [empty]
        rfl
      · cases rest <;> simp [intercalate]

/-- A name stands at the place with its labels written out, so that it can be pointed to. -/
def NamedAt (buffer : Buffer) (position : Nat) (name : Name) : Prop :=
  ∃ labels extent first, Written name labels ∧ buffer[position]? = some first ∧
    isPointer first = false ∧ Spelled buffer bufferHeaderLen position position labels extent

theorem NamedAt.grown {other : Buffer} (named : NamedAt buffer position name)
    (grows : GrownBehind bufferHeaderLen buffer other) : NamedAt other position name := by
  obtain ⟨labels, extent, first, written, found, plain, spelled⟩ := named
  have same : PartAt other position [first] :=
    ((PartAt.cons_iff first).mpr ⟨found, PartAt.nil _ _⟩).grown grows spelled.above.1
  exact ⟨labels, extent, first, written, ((PartAt.cons_iff first).mp same).1, plain,
    spelled.grown grows⟩

/-- It is read as it was given. -/
theorem NamedAt.reads (named : NamedAt buffer position name) :
    ∃ parsed, Labels.parse buffer position = .ok parsed ∧ parsed.string parsed.count = .ok name := by
  obtain ⟨texts, extent, first, written, _, _, spelled⟩ := named
  obtain ⟨views, sites, visited⟩ := visit_spelled spelled (Nat.le_refl _)
  have filled : buffer ≠ [] := by
    rintro rfl
    exact absurd spelled.inside (Nat.not_lt_zero position)
  refine ⟨_, parse_spelled buffer _ position extent spelled written.size, ?_⟩
  rw [string, labels, if_neg filled, visited _ (Nat.le_refl _), bind_ok,
    join_sites [] sites fun label member => (written.filled label member).1, if_pos rfl,
    written.joined]

end names

section encodes

/-- The flags that are set for the records of an entry. -/
def flagsOf (tenantId : Option Uuid) (rrs : List StoredRr) : Wire.Flags where
  soa := rrs.any fun rr => rr.type == RrType.soa
  ns := rrs.any fun rr => rr.type == RrType.ns
  a := rrs.any fun rr => rr.type == RrType.a
  aaaa := rrs.any fun rr => rr.type == RrType.aaaa
  cname := rrs.any fun rr => rr.type == RrType.cname
  txt := rrs.any fun rr => rr.type == RrType.txt
  tenantId := tenantId.isSome

variable (tenantId : Option Uuid)

/-- `adding` sets the flag of the type. -/
theorem flagsOf_adding (rrs : List StoredRr) (rr : StoredRr) :
    (flagsOf tenantId rrs).adding rr.type = flagsOf tenantId (rrs ++ [rr]) := by
  simp only [flagsOf, any_append, any_cons, any_nil, Bool.or_false]
  rw [Wire.Flags.adding]
  split_ifs <;> simp_all [RrType.soa, RrType.ns, RrType.a, RrType.aaaa, RrType.cname, RrType.txt]

/-- The flags do not depend on the order of the records. -/
theorem flagsOf_perm {rrs others : List StoredRr} (perm : rrs.Perm others) :
    flagsOf tenantId rrs = flagsOf tenantId others := by
  simp only [flagsOf, perm.any_eq]

/-- An element of the index, and the record that stands where it says. -/
def Shown (buffer : Buffer) (place : Index) (rr : StoredRr) : Prop :=
  place.type = rr.type.toNat ∧ ∃ size, Placed buffer bufferHeaderLen place.offset false rr.data size

theorem Shown.grown {buffer other : Buffer} {place : Index} {rr : StoredRr}
    (shown : Shown buffer place rr) (grows : GrownBehind bufferHeaderLen buffer other) :
    Shown other place rr := by
  obtain ⟨isType, size, placed⟩ := shown
  exact ⟨isType, size, placed.grown grows⟩

/-- The bytes of a builder are those of the records that were given to it. -/
structure Encodes (wire : Wire.StorageBuilder) (builder : StorageBuilder) : Prop where
  opened : wire.finished = false
  sort : wire.sort = builder.sort
  oneSoa : wire.oneSoa = builder.oneSoa
  size : wire.buffer.length = builder.size
  small : builder.size ≤ 65535
  tenant : PartAt wire.buffer bufferHeaderLen (builder.tenantId.elim [] Uuid.bytes)
  zonelen : wire.zonelen = builder.zoneLen
  flags : wire.flags = flagsOf builder.tenantId builder.rrs
  namePtr : wire.namePtr = if builder.rrs = [] then 0 else firstName builder.tenantId
  named : builder.rrs ≠ [] → NamedAt wire.buffer (firstName builder.tenantId) builder.defaultLabels
  soa : wire.soaOffset = 0 ↔ ∀ rr ∈ builder.rrs, rr.type ≠ RrType.soa
  placed : Forall₂ (Shown wire.buffer) wire.index builder.rrs

variable {wire : Wire.StorageBuilder} {builder : StorageBuilder}

theorem firstName_le_size (builder : StorageBuilder) : firstName builder.tenantId ≤ builder.size :=
  Nat.le_add_right _ _

theorem size_adding (builder : StorageBuilder) (rr : StoredRr) :
    (builder.adding rr).size = builder.size + rr.size := by
  simp [StorageBuilder.size, adding, Nat.add_assoc]

theorem firstName_cases :
    8 ≤ firstName tenantId ∧ firstName tenantId ≤ 24 := by
  cases tenantId <;> simp [firstName, bufferHeaderLen]

/-- Where the next SOA would be noted is decided alike on both levels. -/
theorem Encodes.soaPlace (encodes : Encodes wire builder) (type : UInt16) :
    Run.Rel (fun place _ => place = 0 ↔ type ≠ RrType.soa ∧ ∀ rr ∈ builder.rrs, rr.type ≠ RrType.soa)
      (wire.soaPlace type)
      (throwIf (type = RrType.soa ∧ builder.oneSoa ∧ ∃ rr ∈ builder.rrs, rr.type = RrType.soa)
        "StorageBuilder::finishRr: More than one SOA!") := by
  have long := (firstName_cases builder.tenantId).1
  have inside := firstName_le_size builder
  have size := encodes.size
  rw [Wire.StorageBuilder.soaPlace]
  split
  · rename_i other
    rw [throwIf_of_not (fun second => other second.1)]
    exact .ok (encodes.soa.trans (and_iff_right other).symm)
  · rename_i isSoa
    rw [not_not] at isSoa
    split
    · rename_i none
      have single := encodes.soa.mp none
      rw [throwIf_of_not fun ⟨_, _, rr, member, has⟩ => single rr member has]
      refine .ok ⟨fun empty => absurd empty (by omega), fun ⟨other, _⟩ => absurd isSoa other⟩
    · rename_i some
      have more : ∃ rr ∈ builder.rrs, rr.type = RrType.soa := by
        by_contra none
        exact some (encodes.soa.mpr fun rr member has => none ⟨rr, member, has⟩)
      split
      · rename_i one
        rw [throwIf_of ⟨isSoa, encodes.oneSoa ▸ one, more⟩]
        exact .thrown _
      · rename_i many
        rw [throwIf_of_not fun second => many (encodes.oneSoa ▸ second.2.1)]
        exact .ok ⟨fun empty => absurd empty some, fun ⟨other, _⟩ => absurd isSoa other⟩

/-- A record whose name has been written is added on both levels. -/
theorem Encodes.finishRr (encodes : Encodes wire builder) (owner : Name) (pointer : Bool)
    (type : UInt16) (ttl : UInt32) (rdata bytes : List UInt8) (namePtr labelLen : Nat)
    (length : bytes.length = (newRr owner pointer type ttl rdata).labelLen)
    (isPtr : namePtr = firstName builder.tenantId)
    (spelled : wire.buffer.length + bytes.length < 65535 → ∃ labels, Written owner labels ∧
      Spelled (wire.buffer ++ bytes) bufferHeaderLen wire.buffer.length wire.buffer.length labels
        bytes.length)
    (named : wire.buffer.length + bytes.length < 65535 → NamedAt (wire.buffer ++ bytes) namePtr
      (builder.adding (newRr owner pointer type ttl rdata)).defaultLabels) :
    Run.Rel Encodes ({ wire with namePtr, labelLen }.finishRr bytes type ttl rdata)
      (builder.finishRr owner pointer type ttl rdata) := by
  obtain ⟨rr, isRr⟩ : ∃ rr, rr = newRr owner pointer type ttl rdata := ⟨_, rfl⟩
  rw [← isRr] at length named
  have body : (⟨type, classIn, sanitizeTtl ttl, rdata⟩ : Body) = rr.toBody := by rw [isRr]; rfl
  have bodyLength := length_dataSpanAfterLabel rr.toBody
  have size := encodes.size
  have whole : (wire.buffer ++ bytes ++ rr.dataSpanAfterLabel).length = builder.size + rr.size := by
    rw [length_append, length_append, bodyLength, StoredRr.size]
    omega
  rw [Wire.StorageBuilder.finishRr, StorageBuilder.finishRr, ← isRr, body, size_adding]
  refine (encodes.soaPlace type).bind fun soaOffset _ isOffset => ?_
  simp only [whole]
  split
  · rename_i fits
    have long := (firstName_cases builder.tenantId).1
    have inside := firstName_le_size builder
    have header : bufferHeaderLen ≤ wire.buffer.length := by
      simp only [bufferHeaderLen]
      omega
    have nameInside : (wire.buffer ++ bytes).length = wire.buffer.length + bytes.length :=
      length_append
    rw [length_append, nameInside, bodyLength] at whole
    have later : GrownBehind bufferHeaderLen (wire.buffer ++ bytes)
        (wire.buffer ++ bytes ++ rr.dataSpanAfterLabel) :=
      append _ _ _ (by omega)
    have grows := (append _ _ bytes header).trans later
    obtain ⟨labels, written, isSpelled⟩ := spelled (by omega)
    have stands := PartAt.at_end (wire.buffer ++ bytes) rr.dataSpanAfterLabel []
    rw [append_nil, nameInside] at stands
    have shown : Shown (wire.buffer ++ bytes ++ rr.dataSpanAfterLabel)
        ⟨type.toNat, wire.buffer.length⟩ rr := by
      refine ⟨by rw [isRr]; rfl, _, labels, _, _, isSpelled.grown later, written.size, stands,
        fields_body (by omega), ?_, rfl⟩
      rw [fieldsData_body, ← written.isName, StoredRr.data, isRr]
      rfl
    refine .ok ⟨encodes.opened, encodes.sort, encodes.oneSoa, ?size, ?small,
      encodes.tenant.grown grows (Nat.le_refl _), encodes.zonelen, ?flags, ?namePtr, ?named, ?soa, ?placed⟩
    case size =>
      rw [size_adding, length_append, nameInside, bodyLength]
      exact whole
    case small =>
      rw [size_adding]
      exact fits
    case flags =>
      have isType : type = rr.type := by rw [isRr]; rfl
      rw [isType]
      exact (congrArg (·.adding rr.type) encodes.flags).trans (flagsOf_adding _ _ rr)
    case namePtr =>
      rw [isPtr, if_neg (by simp [adding])]
      rfl
    case named =>
      intro _
      rw [isPtr] at named
      exact (named (by omega)).grown later
    case soa =>
      refine isOffset.trans ?_
      simp only [adding, forall_mem_append, forall_mem_singleton, isRr, newRr]
      exact and_comm
    case placed =>
      exact rel_append (encodes.placed.imp fun _ _ earlier => earlier.grown grows)
        (.cons shown .nil)
  · exact .outOfBounds

/-- Whether the first name is used again is decided alike on both levels. -/
theorem Encodes.sharesName (encodes : Encodes wire builder) (fqdn : Name) (isOneEntity : Bool) :
    wire.sharesName fqdn isOneEntity = .ok (builder.sharesName fqdn isOneEntity) := by
  have isPtr := encodes.namePtr
  by_cases empty : builder.rrs = []
  · rw [if_pos empty] at isPtr
    rw [Wire.StorageBuilder.sharesName, if_pos isPtr, StorageBuilder.sharesName]
    simp [empty]
  · have positive := (firstName_cases builder.tenantId).1
    rw [if_neg empty] at isPtr
    have some : wire.namePtr ≠ 0 := by omega
    obtain ⟨parsed, isParsed, reads⟩ := (encodes.named empty).reads
    rw [Wire.StorageBuilder.sharesName, if_neg some, StorageBuilder.sharesName]
    cases isOneEntity with
    | true => simp [empty]
    | false =>
      rw [if_neg Bool.false_ne_true, Wire.StorageBuilder.defaultLabels, if_neg some, isPtr, isParsed,
        bind_ok, reads, bind_ok]
      simp [empty, beq_eq_decide]

/-- A name that is written out can be pointed to. -/
theorem Written.namedAt {buffer : Buffer} (written : Written name labels)
    (wrote : Name.Writable name) (behind : bufferHeaderLen ≤ buffer.length)
    (near : buffer.length + (wireName name).length ≤ 65535) :
    NamedAt (buffer ++ wireName name) buffer.length name := by
  obtain ⟨byte, rest, isWire, low⟩ := wireName_head wrote
  refine ⟨labels, _, byte, written, ?_, ?_, written.spelled behind near⟩
  · rw [isWire, getElem?_append_right (Nat.le_refl _), Nat.sub_self]
    rfl
  · exact forall_byte (fun byte => byte.toNat < 192 → isPointer byte = false)
      (by decide +kernel) byte low

/-- The first name stays when records are added. -/
theorem defaultLabels_adding {builder : StorageBuilder} (rr : StoredRr)
    (filled : builder.rrs ≠ []) : (builder.adding rr).defaultLabels = builder.defaultLabels := by
  cases isRrs : builder.rrs with
  | nil => exact absurd isRrs filled
  | cons head rest => simp [adding, defaultLabels, isRrs]

/-- Creating a record is the same on both levels. -/
theorem Encodes.createRr (encodes : Encodes wire builder) (fqdn : Name) (type : UInt16)
    (ttl : UInt32) (rdata : List UInt8) (isOneEntity : Bool) :
    Run.Rel Encodes (wire.createRr fqdn type ttl rdata isOneEntity)
      (builder.createRr fqdn type ttl rdata isOneEntity) := by
  have isPtr := encodes.namePtr
  have near := firstName_cases builder.tenantId
  have inside := firstName_le_size builder
  have size := encodes.size
  have header : bufferHeaderLen ≤ wire.buffer.length := by
    simp only [bufferHeaderLen]
    omega
  have opened : assert (!wire.finished) = .ok () := by
    rw [encodes.opened]
    rfl
  rw [Wire.StorageBuilder.createRr, StorageBuilder.createRr, opened, bind_ok,
    encodes.sharesName fqdn isOneEntity, bind_ok]
  split
  · rename_i shares
    have filled : builder.rrs ≠ [] := by
      intro empty
      simp [StorageBuilder.sharesName, empty] at shares
    rw [if_neg filled] at isPtr
    have first := encodes.named filled
    have below : firstName builder.tenantId < wire.buffer.length := by
      obtain ⟨_, _, _, _, _, _, spelled⟩ := first
      exact spelled.inside
    rw [Wire.StorageBuilder.createRrAt, opened, bind_ok]
    refine encodes.finishRr builder.defaultLabels true type ttl rdata _ wire.namePtr wire.labelLen rfl
      isPtr ?_ ?_
    · intro fits
      obtain ⟨labels, extent, byte, written, found, plain, spelled⟩ :=
        first.grown (append _ _ (pointerBytes wire.namePtr) header)
      have stands := PartAt.at_end wire.buffer (pointerBytes wire.namePtr) []
      refine ⟨labels, written, .pointer _ _ (firstName builder.tenantId) (firstName builder.tenantId)
        extent byte labels header (by omega) (isPtr ▸ stands) (by omega) ?_ (Nat.le_refl _) found plain
        spelled⟩
      exact below
    · intro _
      rw [defaultLabels_adding _ filled, isPtr]
      exact first.grown (append _ _ _ header)
  · refine Run.Rel.after _ fun rlen wrote => Run.Rel.after _ fun _ measured => ?_
    obtain rfl : rlen = labelsLen fqdn := of_decide_eq_true (assert_eq_ok measured)
    have wrote := (writeName_labelsLen.mp wrote).1
    obtain ⟨labels, written⟩ := writeName_written wrote
    refine encodes.finishRr (withoutDot fqdn) false type ttl rdata _ _ _
      (wireName_length _) ?_ ?_ ?_
    · by_cases empty : builder.rrs = []
      · rw [if_pos empty] at isPtr
        rw [if_pos isPtr, size, StorageBuilder.size, empty]
        rfl
      · rw [if_neg empty] at isPtr
        rw [if_neg (by omega), isPtr]
    · intro fits
      exact ⟨labels, written, written.spelled header (by omega)⟩
    · intro fits
      by_cases empty : builder.rrs = []
      · rw [if_pos empty] at isPtr
        rw [if_pos isPtr]
        simp only [adding, defaultLabels, empty]
        exact written.namedAt wrote header (by omega)
      · rw [if_neg empty] at isPtr
        rw [if_neg (by omega), isPtr, defaultLabels_adding _ empty]
        exact (encodes.named empty).grown (append _ _ _ header)

end encodes

end Nsblast
