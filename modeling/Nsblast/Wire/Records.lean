import Nsblast.Wire.MessageBounds
import Nsblast.Wire.WriteLabels

/-!
# What the records of a message say

A record is a name and the bytes behind it. Everything but the name is read from these
bytes alone, so two records with the same labels and the same bytes say the same,
wherever they are. `Placed` is a record as a builder leaves it: a spelled name, and the
bytes right behind it. Such a record is parsed again and read back, and a section that
consists of such records is indexed record by record.
-/

namespace Nsblast

open Buffer Labels List
open Run (bind_eq_ok bind_ok noexcept throwIf_of)

/-- What is read from a record or a question. The root is the last of the labels. -/
structure RrData where
  labels : List Text
  type : Nat
  clas : Nat
  ttl : Nat
  rdata : List UInt8
  deriving DecidableEq, Repr

namespace Rr

def labels (buffer : Buffer) (rr : Rr) : Run Labels := Labels.parse buffer rr.offset

def staticDataLen (rr : Rr) : Nat := if rr.isQuery then 4 else 10

/-- The bytes of a record without its name. -/
def dataLen (buffer : Buffer) (rr : Rr) : Run Nat := do
  let rdlength ← noexcept (rr.rdlength buffer)
  .ok (rr.staticDataLen + rdlength)

/-- The length is a 16-bit number here. -/
def dataSpanAfterLabel (buffer : Buffer) (rr : Rr) : Run (List UInt8) := do
  let fqdn ← noexcept (rr.labels buffer)
  let dataLen ← rr.dataLen buffer
  readRange buffer (rr.selfView.start + fqdn.bytes) (dataLen % 65536)

/-- All that a record says. -/
def data (buffer : Buffer) (rr : Rr) : Run RrData := do
  let fqdn ← rr.labels buffer
  let labels ← WriteLabels.iterate fqdn.view fqdn.offset fqdn.count
  let type ← rr.type buffer
  let clas ← rr.clas buffer
  let ttl ← rr.ttl buffer
  let rdata ← rr.rdata buffer
  .ok ⟨labels.map Prod.snd, type, clas, ttl, rdata⟩

end Rr

/-- The records of a section, as its iterator goes over them. -/
def RrList.records (buffer : Buffer) (list : RrList) : Run (List RrData) :=
  list.index.mapM fun entry => do
    let rr ← Rr.parse buffer entry.offset list.isQuestion
    rr.data buffer

/-- The records of the four sections. -/
def Message.records (buffer : Buffer) (message : Message) : Run (List (List RrData)) :=
  message.rrsets.mapM fun
    | none => .ok []
    | some list => list.records buffer

variable {rr : Rr}

section fields

/-- The bytes behind the name of a question are its type and its class, those of a
record state how long they are. -/
def Fields (isQuestion : Bool) (fields : List UInt8) : Prop :=
  if isQuestion then fields.length = 4
  else 10 ≤ fields.length ∧ get16bValueAt fields (whole fields) 8 = .ok (fields.length - 10)

/-- What the bytes behind a name say. -/
def fieldsData (labels : List Text) (isQuestion : Bool) (fields : List UInt8) : Run RrData := do
  let type ← get16bValueAt fields (whole fields) 0
  let clas ← get16bValueAt fields (whole fields) 2
  let ttl ← if isQuestion then pure 0 else get32bValueAt fields (whole fields) 4
  .ok ⟨labels, type, clas, ttl, if isQuestion then [] else fields.drop 10⟩

variable {buffer : Buffer} {position base : Nat} {fields : List UInt8}

/-- A part of the buffer is read as itself. -/
theorem readRange_part (stands : PartAt buffer position fields) (location bytes : Nat)
    (fits : location + bytes ≤ fields.length) :
    readRange buffer (position + location) bytes = readRange fields location bytes := by
  induction bytes generalizing location with
  | zero => rfl
  | succ bytes ih =>
    have here : read buffer (position + location) = read fields location := by
      obtain ⟨rest, isRest⟩ := stands
      rw [Buffer.read, Buffer.read, ← getElem?_drop, ← isRest, getElem?_append_left (by omega)]
    rw [readRange, readRange, here, Nat.add_assoc, ih (location + 1) (by omega)]

/-- A value of a record is a value of its bytes. -/
theorem getValueAt_part (stands : PartAt buffer (position + base) fields) (bytes location : Nat)
    (positive : 0 < bytes) :
    getValueAt buffer ⟨position, base + fields.length⟩ bytes (base + location) =
      getValueAt fields (whole fields) bytes location := by
  by_cases fits : location + bytes ≤ fields.length
  · rw [getValueAt_accepted _ positive (by simp only; omega),
      getValueAt_accepted _ positive (by simpa [whole] using fits)]
    have same := readRange_part stands location bytes fits
    simp only [whole, Nat.zero_add]
    rw [← same, Nat.add_assoc]
  · have cut : location + (bytes - 1) ≥ (whole fields).length := by
      simp only [whole]
      omega
    have cutView : base + location + (bytes - 1) ≥ (⟨position, base + fields.length⟩ : View).length := by
      simp only
      omega
    rw [getValueAt, getValueAt, throwIf_of cut, throwIf_of cutView]
    rfl

/-- The element whose name takes `base` bytes. -/
def rrAt (position base : Nat) (fields : List UInt8) : Rr :=
  ⟨position, base, ⟨position, base + fields.length⟩⟩

variable {isQuestion : Bool} {fqdn : Labels} {length offset : Nat}

theorem isQuery_rrAt (position base : Nat) {fields : List UInt8}
    (isFields : Fields isQuestion fields) : (rrAt position base fields).isQuery = isQuestion := by
  have length : (rrAt position base fields).isQuery = (fields.length == 4) := by
    simp [rrAt, Rr.isQuery]
  rw [length]
  cases isQuestion with
  | true => simpa [Fields] using isFields
  | false =>
    have long : 10 ≤ fields.length := by
      exact isFields.1
    rw [beq_eq_false_iff_ne]
    omega

/-- Everything but the name is read from the bytes behind it. -/
theorem data_rrAt (stands : PartAt buffer (position + base) fields)
    (isFields : Fields isQuestion fields) {pairs : List (Nat × Text)}
    (parsed : Labels.parse buffer position = .ok fqdn)
    (iterated : WriteLabels.iterate fqdn.view fqdn.offset fqdn.count = .ok pairs) :
    (rrAt position base fields).data buffer =
      fieldsData (pairs.map Prod.snd) isQuestion fields := by
  have isQuery := isQuery_rrAt position base isFields
  have type := getValueAt_part stands 2 0 (by omega)
  have clas := getValueAt_part stands 2 2 (by omega)
  have ttl := getValueAt_part stands 4 4 (by omega)
  rw [Rr.data, Rr.labels, Rr.ttl, Rr.rdata, isQuery, fieldsData]
  simp only [rrAt, Rr.type, Rr.clas, get16bValueAt, get32bValueAt] at type clas ttl ⊢
  rw [parsed, bind_ok, iterated, bind_ok]
  simp only [Nat.add_zero] at type
  rw [type, clas, ttl]
  cases isQuestion with
  | true => simp
  | false =>
    have long : 10 ≤ fields.length := by
      exact isFields.1
    have read := readRange_part stands 10 (fields.length - 10) (by omega)
    rw [readRange_inside fields 10 _ (by omega), take_of_length_le (by simp)] at read
    have place : position + (base + 10) = position + base + 10 := by omega
    have rest : base + fields.length - (base + 10) = fields.length - 10 := by omega
    simp [place, rest, read]

theorem dataLen_rrAt (stands : PartAt buffer (position + base) fields)
    (isFields : Fields isQuestion fields) :
    (rrAt position base fields).dataLen buffer = .ok fields.length := by
  have isQuery := isQuery_rrAt position base isFields
  have length := getValueAt_part stands 2 8 (by omega)
  rw [Rr.dataLen, Rr.rdlength, Rr.staticDataLen, isQuery]
  cases isQuestion with
  | true =>
    simp only [Fields, if_true] at isFields
    simp [noexcept, isFields]
  | false =>
    obtain ⟨long, stated⟩ := isFields
    have same : get16bValueAt buffer (rrAt position base fields).selfView
        ((rrAt position base fields).offsetToType + 8) = .ok (fields.length - 10) := by
      rw [← stated]
      simp only [rrAt, get16bValueAt]
      rw [length]
    have total : 10 + (fields.length - 10) = fields.length := by omega
    simp [same, noexcept, total]

variable {own : Buffer}

/-- The bytes of a name are counted alike when its record is parsed and when it is. -/
theorem labelLen_bytes (measured : Rr.labelLen own offset = .ok length)
    (parsed : Labels.parse own offset = .ok fqdn) :
    length = fqdn.bytes := by
  obtain ⟨views, spec⟩ := Labels.parse_accepted parsed
  obtain ⟨byte, isByte, first⟩ := nameAt_first spec.name
  rw [Rr.labelLen, (read_eq_ok own offset byte).mpr isByte, bind_ok, parsed] at measured
  rcases first with ⟨zero, _, one⟩ | ⟨tagged, two⟩ | ⟨plain, positive, _⟩
  · rw [if_pos zero] at measured
    cases measured
    exact one.symm
  · have notZero : byte ≠ 0 := by
      rintro rfl
      cases tagged
    rw [if_neg notZero, if_pos tagged] at measured
    cases measured
    exact two.symm
  · have notZero : byte ≠ 0 := by
      rintro rfl
      exact absurd positive (by decide)
    rw [if_neg notZero, plain, if_neg Bool.false_ne_true] at measured
    cases measured
    rfl

/-- The bytes of a record that is parsed. -/
theorem parseRecord_fields (parsed : Rr.parseRecord own offset length = .ok rr) :
    ∃ fields, rr = rrAt offset length fields ∧ PartAt own (offset + length) fields ∧
      Fields false fields := by
  simp only [Rr.parseRecord, Rr.recordView, bind_eq_ok] at parsed
  obtain ⟨_, inside, rdlen, stated, _, fits, _, _, isRr⟩ := parsed
  have isInside : offset + length + 10 ≤ own.length := by
    by_contra outside
    rw [throwIf_of (by omega)] at inside
    cases inside
  have window : length + (2 + 2 + 4 + 2 + rdlen) ≤ own.length - offset := by
    by_contra outside
    have large : length + (2 + 2 + 4 + 2 + rdlen) > Rr.maxWindowSize own offset := by
      simp only [Rr.maxWindowSize]
      omega
    rw [throwIf_of large] at fits
    cases fits
  have size : ((own.drop (offset + length)).take (10 + rdlen)).length = 10 + rdlen := by
    rw [length_take, length_drop]
    omega
  have stands : PartAt own (offset + length) ((own.drop (offset + length)).take (10 + rdlen)) :=
    List.take_prefix _ _
  refine ⟨(own.drop (offset + length)).take (10 + rdlen), ?_, stands, ?_⟩
  · rw [rrAt, size]
    cases isRr
    rfl
  · have read := readRange_part stands 8 2 (by omega)
    rw [get16bValueAt, getValueAt_accepted own (by omega) (by simp only [whole]; omega)] at stated
    simp only [Fields, Bool.false_eq_true, if_false, size]
    refine ⟨by omega, ?_⟩
    rw [get16bValueAt, getValueAt_accepted _ (by omega) (by simp only [whole]; omega)]
    simp only [whole, Nat.zero_add] at stated ⊢
    rw [← read, stated, Nat.add_sub_cancel_left]

/-- A record knows where it was parsed. -/
theorem Rr.parse_offset {buffer : Buffer} {isQuery : Bool}
    (parsed : Rr.parse buffer offset isQuery = .ok rr) : rr.offset = offset := by
  simp only [Rr.parse, bind_eq_ok] at parsed
  obtain ⟨_, _, length, _, parsed⟩ := parsed
  split at parsed
  · cases parsed
    rfl
  · obtain ⟨fields, isRr, _⟩ := parseRecord_fields parsed
    rw [isRr, rrAt]

/-- An element that was parsed: the bytes behind its name. A question is cut off in the message
unless its class can be read. -/
theorem parsed_fields (parsed : Rr.parse own offset isQuestion = .ok rr)
    (named : Labels.parse own offset = .ok fqdn)
    (whole : isQuestion = true → ∃ clas, rr.clas own = .ok clas) :
    ∃ fields, rr = rrAt offset fqdn.bytes fields ∧ PartAt own (offset + fqdn.bytes) fields ∧
      Fields isQuestion fields := by
  simp only [Rr.parse, bind_eq_ok] at parsed
  obtain ⟨_, _, length, measured, parsed⟩ := parsed
  have bytes := labelLen_bytes measured named
  subst bytes
  cases isQuestion with
  | true =>
    obtain ⟨clas, isClas⟩ := whole rfl
    cases parsed
    have inside : offset + fqdn.bytes + 4 ≤ own.length := by
      by_contra outside
      have stray := get16bValueAt_outside own ⟨offset, fqdn.bytes + 4⟩ (fqdn.bytes + 2)
        (by simp only; omega) (by simp only; omega)
      rw [Rr.clas, stray] at isClas
      cases isClas
    have size : ((own.drop (offset + fqdn.bytes)).take 4).length = 4 := by
      rw [length_take, length_drop]
      omega
    exact ⟨(own.drop (offset + fqdn.bytes)).take 4, by rw [rrAt, size], List.take_prefix _ _,
      by simpa [Fields] using size⟩
  | false => exact parseRecord_fields (by simpa using parsed)

/-- A record that is valid in its own buffer: its name, and the bytes behind it. -/
theorem own_fields {data : RrData} (parsed : Rr.parse own offset isQuestion = .ok rr)
    (reads : rr.data own = .ok data) :
    ∃ fqdn fields, rr = rrAt offset fqdn.bytes fields ∧ Labels.parse own offset = .ok fqdn ∧
      PartAt own (offset + fqdn.bytes) fields ∧ Fields isQuestion fields := by
  simp only [Rr.data, Rr.labels, bind_eq_ok, Rr.parse_offset parsed] at reads
  obtain ⟨fqdn, named, _, _, _, _, clas, isClas, _⟩ := reads
  obtain ⟨fields, isRr, stands, isFields⟩ := parsed_fields parsed named fun _ => ⟨clas, isClas⟩
  exact ⟨fqdn, fields, isRr, named, stands, isFields⟩

end fields

/-- What a record says begins with its type and its class. -/
theorem data_fields {buffer : Buffer} {data : RrData} (reads : rr.data buffer = .ok data) :
    rr.type buffer = .ok data.type ∧ rr.clas buffer = .ok data.clas := by
  simp only [Rr.data, bind_eq_ok] at reads
  obtain ⟨_, _, _, _, type, isType, clas, isClas, _, _, _, _, isData⟩ := reads
  cases isData
  exact ⟨isType, isClas⟩

section placed

variable {buffer : Buffer} {floor : Nat}

/-- The record at a place as a builder leaves it, what it says and the bytes it takes. -/
def Placed (buffer : Buffer) (floor position : Nat) (isQuestion : Bool) (data : RrData)
    (size : Nat) : Prop :=
  ∃ labels fields extent, Spelled buffer floor position position labels extent ∧
    textSize 0 labels ≤ 254 ∧ PartAt buffer (position + extent) fields ∧
    Fields isQuestion fields ∧ fieldsData (labels ++ [[]]) isQuestion fields = .ok data ∧
    size = extent + fields.length

/-- Records one behind the other. -/
def PlacedAll (buffer : Buffer) (floor : Nat) (isQuestion : Bool) : Nat → List RrData → Nat → Prop
  | position, [], stop => position = stop
  | position, data :: rest, stop => ∃ size, Placed buffer floor position isQuestion data size ∧
      PlacedAll buffer floor isQuestion (position + size) rest stop

/-- Sections one behind the other, from the one with the given index on. -/
def PlacedSections (buffer : Buffer) (floor : Nat) : Nat → Nat → List (List RrData) → Nat → Prop
  | _, position, [], stop => position = stop
  | index, position, records :: later, stop => ∃ middle,
      PlacedAll buffer floor (index == 0) position records middle ∧
      PlacedSections buffer floor (index + 1) middle later stop

variable {isQuestion : Bool} {fields : List UInt8} {extent position size stop : Nat} {data : RrData}
    {records : List RrData} {other : Buffer} {labels : List Text}

theorem four_le_fields (isFields : Fields isQuestion fields) : 4 ≤ fields.length := by
  cases isQuestion with
  | true =>
    simp only [Fields, if_true] at isFields
    omega
  | false =>
    simp only [Fields, Bool.false_eq_true, if_false] at isFields
    omega

theorem fields_ne_nil (isFields : Fields isQuestion fields) : fields ≠ [] := by
  rintro rfl
  cases four_le_fields isFields

theorem Placed.inside (placed : Placed buffer floor position isQuestion data size) :
    0 < size ∧ position + size ≤ buffer.length := by
  obtain ⟨labels, fields, extent, spelled, _, stands, isFields, _, isSize⟩ := placed
  have ends := stands.inside (fields_ne_nil isFields)
  have positive := length_pos_iff.mpr (fields_ne_nil isFields)
  omega

theorem PlacedAll.inside (placed : PlacedAll buffer floor isQuestion position records stop)
    (starts : position ≤ buffer.length) : position ≤ stop ∧ stop ≤ buffer.length := by
  induction records generalizing position with
  | nil =>
    rw [← placed]
    exact ⟨Nat.le_refl _, starts⟩
  | cons data rest ih =>
    obtain ⟨size, here, more⟩ := placed
    have := here.inside
    have := ih more (by omega)
    omega

theorem Placed.grown (placed : Placed buffer floor position isQuestion data size)
    (grows : GrownBehind floor buffer other) :
    Placed other floor position isQuestion data size := by
  obtain ⟨labels, fields, extent, spelled, fits, stands, rest⟩ := placed
  have above := spelled.above
  exact ⟨labels, fields, extent, spelled.grown grows, fits, stands.grown grows (by omega), rest⟩

theorem PlacedAll.grown (placed : PlacedAll buffer floor isQuestion position records stop)
    (grows : GrownBehind floor buffer other) :
    PlacedAll other floor isQuestion position records stop := by
  induction records generalizing position with
  | nil => exact placed
  | cons data rest ih =>
    obtain ⟨size, here, more⟩ := placed
    exact ⟨size, here.grown grows, ih more⟩

/-- The name of a placed record is measured as it was written. -/
theorem labelLen_spelled (spelled : Spelled buffer floor position position labels extent)
    (fits : textSize 0 labels ≤ 254) : Rr.labelLen buffer position = .ok extent := by
  have parsed := parse_spelled buffer floor position extent spelled fits
  have inside := spelled.inside
  obtain ⟨byte, isRead, _⟩ := read_inside buffer position inside
  have measured : ∃ length, Rr.labelLen buffer position = .ok length := by
    rw [Rr.labelLen, isRead, bind_ok, parsed]
    split
    · exact ⟨1, rfl⟩
    · split
      · exact ⟨2, rfl⟩
      · exact ⟨extent, rfl⟩
  obtain ⟨length, isLength⟩ := measured
  rw [isLength, labelLen_bytes isLength parsed]

/-- The bytes of a record are found again. -/
theorem parseRecord_placed (small : buffer.length < 2 ^ 64)
    (stands : PartAt buffer (position + extent) fields) (isFields : Fields false fields) :
    Rr.parseRecord buffer position extent = .ok (rrAt position extent fields) := by
  have ends := stands.inside (fields_ne_nil isFields)
  obtain ⟨long, stated⟩ := isFields
  have window := Rr.maxWindowSize_inside position (by omega) small
  have inside : ¬ position + extent + 2 + 2 + 4 + 2 > buffer.length := by omega
  have fits : extent + (2 + 2 + 4 + 2 + (fields.length - 10)) = extent + fields.length := by omega
  have room : ¬ extent + fields.length > buffer.length - position := by omega
  have length : get16bValueAt buffer (whole buffer) (position + extent + 2 + 2 + 4) =
      .ok (fields.length - 10) := by
    rw [get16bValueAt, getValueAt_accepted _ (by omega) (by simp only [whole]; omega)] at stated ⊢
    simp only [whole, Nat.zero_add] at stated ⊢
    rw [← stated, ← readRange_part stands 8 2 (by omega)]
  rw [Rr.parseRecord, Run.throwIf_of_not inside, bind_ok, length, bind_ok, fits, Rr.recordView,
    window, Run.throwIf_of_not room, bind_ok, Run.assert_of (by omega), bind_ok]
  rfl

/-- A spelled name and the bytes behind it are parsed as a record. -/
theorem parse_placed (small : buffer.length < 2 ^ 64)
    (spelled : Spelled buffer floor position position labels extent)
    (fits : textSize 0 labels ≤ 254) (stands : PartAt buffer (position + extent) fields)
    (isFields : Fields isQuestion fields) :
    Rr.parse buffer position isQuestion = .ok (rrAt position extent fields) ∧
      (rrAt position extent fields).data buffer = fieldsData (labels ++ [[]]) isQuestion fields := by
  have parsed := parse_spelled buffer floor position extent spelled fits
  have measured := labelLen_spelled spelled fits
  obtain ⟨pairs, iterated, texts⟩ := WriteLabels.iterate_spelled spelled (Nat.le_refl _)
  have ends := stands.inside (fields_ne_nil isFields)
  have four := four_le_fields isFields
  constructor
  · rw [Rr.parse_inside isQuestion small (by omega), measured, bind_ok]
    cases isQuestion with
    | true =>
      rw [if_pos rfl, rrAt, isFields]
      rfl
    | false =>
      exact parseRecord_placed small stands isFields
  · rw [data_rrAt stands isFields parsed iterated, texts]

/-- A placed record is parsed again. -/
theorem Placed.parse (placed : Placed buffer floor position isQuestion data size)
    (small : buffer.length < 2 ^ 64) :
    ∃ rr, Rr.parse buffer position isQuestion = .ok rr ∧ rr.size = size ∧ rr.data buffer = .ok data := by
  obtain ⟨labels, fields, extent, spelled, fits, stands, isFields, reads, rfl⟩ := placed
  obtain ⟨parsed, same⟩ := parse_placed small spelled fits
    stands isFields
  exact ⟨rrAt position extent fields, parsed, rfl, same.trans reads⟩

/-- The loop over a section of placed records. -/
theorem indexFrom_placed (isQuestion : Bool) (records : List RrData) (position stop bytes : Nat)
    (small : buffer.length ≤ 65535) (starts : position ≤ buffer.length) (counted : bytes ≤ position)
    (placed : PlacedAll buffer floor isQuestion position records stop) :
    ∃ index, RrList.indexFrom buffer isQuestion records.length position bytes =
        .ok (index, bytes + (stop - position)) ∧
      RrList.records buffer ⟨isQuestion, index, bytes + (stop - position)⟩ = .ok records := by
  induction records generalizing position bytes with
  | nil =>
    cases placed
    exact ⟨[], by simp [RrList.indexFrom], rfl⟩
  | cons data rest ih =>
    obtain ⟨size, here, more⟩ := placed
    have inside := here.inside
    have further := more.inside (by omega)
    obtain ⟨rr, parsed, isSize, isData⟩ := here.parse (by omega)
    obtain ⟨type, isType⟩ : ∃ type, rr.type buffer = .ok type := by
      simp only [Rr.data, bind_eq_ok] at isData
      obtain ⟨_, _, _, _, type, isType, _⟩ := isData
      exact ⟨type, isType⟩
    obtain ⟨index, indexed, read⟩ := ih (position + size) (bytes + size) (by omega) (by omega) more
    have place : (position + rr.size) % 65536 = position + size := by omega
    have sum : (bytes + rr.size) % 65536 = bytes + size := by omega
    have total : bytes + size + (stop - (position + size)) = bytes + (stop - position) := by omega
    refine ⟨⟨type, position⟩ :: index, ?_, ?_⟩
    · rw [length_cons, RrList.indexFrom, parsed, bind_ok, isType, bind_ok, place, sum,
        indexed, bind_ok, total]
      rfl
    · simp only [RrList.records] at read ⊢
      simp only [mapM_cons, parsed, bind_ok, isData, read]
      rfl

/-- The loop over the sections. -/
theorem sectionsFrom_placed (sections : List (List RrData)) (index position stop : Nat)
    (small : buffer.length ≤ 65535) (starts : position ≤ buffer.length)
    (placed : PlacedSections buffer floor index position sections stop) :
    ∃ rrsets, Message.sectionsFrom buffer (sections.map List.length) index position = .ok rrsets ∧
      Message.records buffer ⟨rrsets⟩ = .ok sections := by
  induction sections generalizing index position with
  | nil => exact ⟨[], rfl, rfl⟩
  | cons records later ih =>
    obtain ⟨middle, here, more⟩ := placed
    have ends := here.inside starts
    obtain ⟨rrsets, indexed, read⟩ := ih (index + 1) middle ends.2 more
    simp only [Message.records] at read
    cases records with
    | nil =>
      cases here
      refine ⟨none :: rrsets, ?_, ?_⟩
      · simp [Message.sectionsFrom, indexed]
      · simp only [Message.records, mapM_cons, read, bind_ok]
        rfl
    | cons data rest =>
      obtain ⟨entries, found, said⟩ := indexFrom_placed (index == 0) (data :: rest) position middle 0
        small starts (Nat.zero_le _) here
      have low : position % 65536 = position := by omega
      have place : position + (0 + (middle - position)) = middle := by omega
      refine ⟨some ⟨index == 0, entries, 0 + (middle - position)⟩ :: rrsets, ?_, ?_⟩
      · rw [map_cons, Message.sectionsFrom, if_pos (by simp), RrList.construct, low, found,
          bind_ok]
        simp only [Run.pure_eq, bind_ok]
        rw [place, indexed, bind_ok]
      · simp only [Message.records, mapM_cons, read, said, bind_ok]
        rfl

end placed

end Nsblast
