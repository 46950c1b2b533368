import Nsblast.Wire.MessageBuilder

/-!
# A message is read as it was built

Every record that is added stands at the end of the message, spelled and with its bytes
behind it, and stays there: later records are appended, and of the rest only the header
changes. The names in the table are names of the message, so whatever is found in it can
be pointed to.

A pointer has fourteen bits. As long as the message is shorter than that, reading it
again yields in each section what was added to it. The parser refuses some headers: one
of a query that has answers, for instance.
-/

namespace Nsblast.Wire

open Buffer Labels WriteLabels List Run
open Message (HdrFlags createIndex getHdrFlags headerSize validate)

namespace MessageBuilder

/-- A record, or a question, that is valid in its own buffer, and what it says. -/
structure OwnRr.Valid (record : OwnRr) (isQuestion : Bool) (data : RrData) : Prop where
  parsed : Rr.parse record.own record.rr.offset isQuestion = .ok record.rr
  reads : record.rr.data record.own = .ok data

/-- The header counts records, and the table has names of the message. -/
structure Sound (builder : MessageBuilder) (front : List UInt8) (counts : Segment → Nat) : Prop where
  four : front.length = 4
  header : ∃ body, builder.buffer = headerBytes front counts ++ body
  bounded : ∀ segment, counts segment ≤ builder.buffer.length
  table : Table builder.buffer headerSize builder.buffer.length builder.labels

/-- The match chosen for the name of a record can be written. -/
def LowMatch (builder : MessageBuilder) (record : OwnRr) : Prop :=
  ∀ fqdn needle best fullMatch, record.rr.labels record.own = .ok fqdn → fqdn.bytes ≠ 1 →
    choose fqdn builder.labels builder.buffer = .ok (needle, best, fullMatch) →
    ∀ location ∈ best.location, location < 16384

/-- What a record adds to a message. -/
structure Adds (builder next : MessageBuilder) (front : List UInt8) (counts : Segment → Nat)
    (segment : Segment) (isQuestion : Bool) (data : RrData) : Prop where
  sound : Sound next front (counted counts segment)
  grows : GrownBehind headerSize builder.buffer next.buffer
  placed : ∃ size, Placed next.buffer headerSize builder.buffer.length isQuestion data size ∧
    next.buffer.length = builder.buffer.length + size
  limit : next.maxBufferSize = builder.maxBufferSize
  short : next.buffer.length < builder.maxBufferSize

variable {builder next : MessageBuilder} {front : List UInt8} {counts : Segment → Nat}

theorem Sound.long (sound : Sound builder front counts) : 12 ≤ builder.buffer.length := by
  obtain ⟨body, isBuffer⟩ := sound.header
  rw [isBuffer, length_append, length_headerBytes counts sound.four]
  omega

theorem Sound.congr {counts' : Segment → Nat} (sound : Sound builder front counts)
    (same : ∀ segment, counts segment = counts' segment) : Sound builder front counts' := by
  rwa [← funext same]

theorem truncate_not_added (segment : Segment) : builder.truncate segment ≠ .ok (true, next) := by
  intro same
  rw [truncate] at same
  split at same
  · simp only [bind_eq_ok] at same
    obtain ⟨_, _, same⟩ := same
    cases same
  · cases same

variable {segment : Segment} {record : OwnRr} {fqdn : Labels} {flags : HdrFlags}

/-- The calls that add a record. -/
theorem addRr_eq_true (record : OwnRr)
    (added : builder.addRr record.own record.rr segment = .ok (true, next)) :
    ∃ fqdn labelLen written known dataLen data buffer,
      record.rr.labels record.own = .ok fqdn ∧
      writeLabels fqdn builder.labels builder.buffer builder.maxBufferSize =
        .ok (labelLen, written, known) ∧ labelLen ≠ 0 ∧
      record.rr.dataLen record.own = .ok dataLen ∧
      ¬ (builder.maxBufferSize ≠ 0 ∧ written.length + dataLen ≥ builder.maxBufferSize) ∧
      record.rr.dataSpanAfterLabel record.own = .ok data ∧
      NewHeader.increment segment (written ++ data) = .ok buffer ∧
      next = { builder with buffer, labels := known } := by
  rw [addRr] at added
  split at added
  · exact absurd added (truncate_not_added segment)
  rw [bind_eq_ok] at added
  obtain ⟨fqdn, isLabels, added⟩ := added
  rw [bind_eq_ok] at added
  obtain ⟨⟨labelLen, written, known⟩, wrote, added⟩ := added
  simp only at added
  split at added
  · exact absurd added (truncate_not_added segment)
  rename_i notZero
  rw [bind_eq_ok] at added
  obtain ⟨dataLen, length, added⟩ := added
  split at added
  · exact absurd added (truncate_not_added segment)
  rename_i room
  simp only [bind_eq_ok] at added
  obtain ⟨data, copied, buffer, increased, added⟩ := added
  cases added
  exact ⟨fqdn, labelLen, written, known, dataLen, data, buffer, isLabels, wrote, notZero, length, room,
    copied, increased, rfl⟩

/-- What is written of a record that is valid in its own buffer: the labels of its name
and the bytes behind it. -/
structure OwnRr.Content (record : OwnRr) (isQuestion : Bool) (data : RrData) (fqdn : Labels)
    (labels : List Text) (fields : List UInt8) : Prop where
  parsed : record.rr.labels record.own = .ok fqdn
  named : Named fqdn labels
  isFields : Fields isQuestion fields
  reads : fieldsData (labels ++ [[]]) isQuestion fields = .ok data
  length : record.rr.dataLen record.own = .ok fields.length
  copied : fields.length < 65536 → record.rr.dataSpanAfterLabel record.own = .ok fields
  size : record.rr.size = fqdn.bytes + fields.length

variable {isQuestion : Bool} {data : RrData}

theorem OwnRr.Valid.content (valid : record.Valid isQuestion data) :
    ∃ fqdn labels fields, record.Content isQuestion data fqdn labels fields := by
  obtain ⟨fqdn, fields, isRr, parsed, stands, isFields⟩ := own_fields valid.parsed valid.reads
  obtain ⟨labels, named⟩ := named_of_parse parsed
  obtain ⟨pairs, iterated, texts⟩ := named.iterated
  have isLabels : record.rr.labels record.own = .ok fqdn := parsed
  have length := dataLen_rrAt stands isFields
  rw [← isRr] at length
  refine ⟨fqdn, labels, fields, isLabels, named, isFields, ?_, length, ?_, ?_⟩
  · have same := data_rrAt stands isFields parsed iterated
    rw [← isRr, valid.reads, texts] at same
    exact same.symm
  · intro small
    have start : record.rr.selfView.start = record.rr.offset := by rw [isRr]; rfl
    have read := readRange_part stands 0 fields.length (by omega)
    rw [readRange_inside fields 0 _ (by omega), drop_zero, take_length, Nat.add_zero] at read
    rw [Rr.dataSpanAfterLabel, isLabels, noexcept_ok, bind_ok, length, bind_ok,
      Nat.mod_eq_of_lt small, start, read]
  · rw [isRr]
    rfl

/-- The header in front of what was appended. -/
theorem Sound.appended {more : List UInt8} (sound : Sound builder front counts) (buffer : Buffer)
    (small : builder.buffer.length < 65535)
    (increased : NewHeader.increment segment (builder.buffer ++ more) = .ok buffer) :
    (∃ body, buffer = headerBytes front (counted counts segment) ++ body) ∧
      GrownBehind headerSize (builder.buffer ++ more) buffer ∧
      buffer.length = (builder.buffer ++ more).length := by
  obtain ⟨body, isBuffer⟩ := sound.header
  have bounded := sound.bounded segment
  have length := length_headerBytes counts sound.four
  have other := length_headerBytes (counted counts segment) sound.four
  rw [isBuffer, append_assoc] at increased ⊢
  rw [increment_headerBytes _ counts sound.four segment (by omega)] at increased
  cases increased
  refine ⟨⟨_, rfl⟩, GrownBehind.front _ length other, ?_⟩
  simp [other, length]

/-- A record for which there is room is added. -/
theorem addRr_room {labels : List Text} {fields name : List UInt8} {known : List KnownName}
    {length : Nat} (segment : Segment) (sound : Sound builder front counts)
    (content : record.Content isQuestion data fqdn labels fields)
    (limit : builder.maxBufferSize ≤ 65535)
    (wrote : writeLabels fqdn builder.labels builder.buffer builder.maxBufferSize =
      .ok (length, builder.buffer ++ name, known)) (notZero : length ≠ 0)
    (room : builder.buffer.length + record.rr.size < builder.maxBufferSize)
    (fits : (builder.buffer ++ name).length + fields.length < builder.maxBufferSize) :
    ∃ body, builder.addRr record.own record.rr segment = .ok (true,
        { builder with buffer := headerBytes front (counted counts segment) ++ body, labels := known }) ∧
      GrownBehind headerSize (builder.buffer ++ name ++ fields)
        (headerBytes front (counted counts segment) ++ body) ∧
      (headerBytes front (counted counts segment) ++ body).length =
        (builder.buffer ++ name ++ fields).length := by
  obtain ⟨body, isBuffer⟩ := sound.header
  have bounded := sound.bounded segment
  have increased : NewHeader.increment segment (builder.buffer ++ name ++ fields) =
      .ok (headerBytes front (counted counts segment) ++ (body ++ (name ++ fields))) := by
    rw [isBuffer, append_assoc, append_assoc]
    exact increment_headerBytes _ counts sound.four segment (by omega)
  refine ⟨body ++ (name ++ fields), ?_, ?_⟩
  · rw [addRr, if_neg (by omega), content.parsed, bind_ok, wrote, bind_ok]
    simp only
    rw [if_neg notZero, content.length, bind_ok, if_neg (by omega),
      content.copied (by omega), bind_ok, increased, bind_ok]
  · rw [append_assoc] at increased ⊢
    exact (sound.appended _ (by omega) increased).2

/-- A record that is added. -/
theorem addRr_adds (sound : Sound builder front counts) (limit : builder.maxBufferSize ≤ 65535)
    (positive : 0 < builder.maxBufferSize) (valid : record.Valid isQuestion data)
    (low : LowMatch builder record)
    (added : builder.addRr record.own record.rr segment = .ok (true, next)) :
    Adds builder next front counts segment isQuestion data := by
  obtain ⟨fqdn, labels, fields, content⟩ := valid.content
  obtain ⟨fqdn', labelLen, written, known, dataLen, copy, buffer, isLabels, wrote, notZero, length, room,
    copied, increased, rfl⟩ := addRr_eq_true record added
  cases content.parsed.symm.trans isLabels
  cases content.length.symm.trans length
  have long := sound.long
  rcases writeLabels_spec builder.maxBufferSize content.named sound.table long
      (fun notRoot needle best fullMatch => low fqdn needle best fullMatch isLabels notRoot) with
    refused | ⟨name, writes⟩
  · rw [refused] at wrote
    cases wrote
    exact absurd rfl notZero
  obtain ⟨rfl, rfl⟩ := writes.appended _ _ _ wrote
  obtain ⟨spelled, known', wrote', isKnown⟩ := writes.done (by omega)
  cases wrote.symm.trans wrote'
  cases (content.copied (by omega)).symm.trans copied
  have four := four_le_fields content.isFields
  have front12 : 12 ≤ (builder.buffer ++ name).length := by
    rw [length_append]
    omega
  rw [append_assoc] at increased
  have below : builder.buffer.length ≤ (builder.buffer ++ name).length := by simp
  obtain ⟨header, grows, sameLength⟩ := sound.appended buffer (by omega) increased
  rw [← append_assoc] at grows sameLength
  rw [length_append] at sameLength
  have named : GrownBehind headerSize (builder.buffer ++ name) buffer :=
    (GrownBehind.append _ _ fields front12).trans grows
  have table := (sound.table.written (Nat.le_refl _) long spelled isKnown).grown (Nat.le_refl _) named
  refine ⟨⟨sound.four, header, ?_, table.raised (by simp only; omega)⟩,
    (GrownBehind.append _ _ name long).trans named, ?_, rfl, by simp only; omega⟩
  · intro other
    have bounded := sound.bounded other
    simp only [counted]
    split <;> omega
  · refine ⟨name.length + fields.length, ⟨labels, fields, name.length, spelled.grown named,
      content.named.size, ?_, content.isFields, content.reads, rfl⟩, ?_⟩
    · have stands := PartAt.at_end (builder.buffer ++ name) fields []
      rw [append_nil, length_append] at stands
      exact stands.grown grows (by simp only [headerSize]; omega)
    · rw [length_append] at sameLength
      simp only
      omega

/-- As long as the message is short, every match can be written. -/
theorem Sound.lowMatch (sound : Sound builder front counts) (short : builder.buffer.length ≤ 16384)
    (valid : record.Valid isQuestion data) : LowMatch builder record := by
  obtain ⟨fqdn, labels, fields, content⟩ := valid.content
  intro fqdn' needle best fullMatch isLabels _ chosen location member
  cases content.parsed.symm.trans isLabels
  obtain ⟨best', fullMatch', chosen', found, _⟩ := choose_spec
    content.named sound.table
  cases chosen.symm.trans chosen'
  rcases found with none | ⟨other, rest, isMatch, matched⟩
  · rw [none] at member
    cases member
  · rw [isMatch] at member
    cases member
    exact Nat.lt_of_lt_of_le matched.low short

/-- The records of one section, and where they are. -/
structure AddsAll (builder next : MessageBuilder) (front : List UInt8) (counts : Segment → Nat)
    (segment : Segment) (isQuestion : Bool) (records : List RrData) : Prop where
  sound : Sound next front
    fun other => if other = segment then counts other + records.length else counts other
  grows : GrownBehind headerSize builder.buffer next.buffer
  placed : PlacedAll next.buffer headerSize isQuestion builder.buffer.length records
    next.buffer.length
  limit : next.maxBufferSize = builder.maxBufferSize
  short : next.buffer.length ≤ max builder.buffer.length builder.maxBufferSize

theorem addAll_adds {added : List OwnRr} {records : List RrData}
    (sound : Sound builder front counts) (limit : builder.maxBufferSize ≤ 16384)
    (positive : 0 < builder.maxBufferSize) (small : builder.buffer.length ≤ 16384)
    (valid : List.Forall₂ (fun record data => OwnRr.Valid record isQuestion data) added records)
    (run : addAll segment added builder = .ok (true, next)) :
    AddsAll builder next front counts segment isQuestion records := by
  induction valid generalizing builder counts with
  | nil =>
    cases run
    refine ⟨?_, GrownBehind.refl _ _, rfl, rfl, Nat.le_max_left _ _⟩
    simpa using sound
  | @cons record data added records isValid valid ih =>
    simp only [addAll, bind_eq_ok] at run
    obtain ⟨⟨first, middle⟩, here, ⟨all, last⟩, later, run⟩ := run
    simp only [ok.injEq, Prod.mk.injEq, Bool.and_eq_true] at run
    obtain ⟨⟨rfl, rfl⟩, rfl⟩ := run
    have adds := addRr_adds sound (by omega) positive isValid (sound.lowMatch small isValid) here
    have short := adds.short
    have same := adds.limit
    have rest := ih adds.sound (by omega) (by omega) (by omega) later
    obtain ⟨size, placed, length⟩ := adds.placed
    refine ⟨?_, adds.grows.trans rest.grows, ⟨size, placed.grown rest.grows, ?_⟩,
      rest.limit.trans same, ?_⟩
    · refine rest.sound.congr fun other => ?_
      simp only [counted, length_cons]
      split <;> omega
    · rw [← length]
      exact rest.placed
    · have := rest.short
      omega

/-- The records of all sections, in their order. -/
def addSections (added : Segment → List OwnRr) (builder : MessageBuilder) :
    Run (Bool × MessageBuilder) := do
  let (questions, builder) ← addAll .question (added .question) builder
  let (answers, builder) ← addAll .answer (added .answer) builder
  let (authorities, builder) ← addAll .authority (added .authority) builder
  let (additional, builder) ← addAll .additional (added .additional) builder
  .ok (questions && answers && authorities && additional, builder)

/-- The sections of a message in their order. -/
def sections (records : Segment → List RrData) : List (List RrData) :=
  [records .question, records .answer, records .authority, records .additional]

/-- A header that is accepted in a message with so many answers. -/
def Accepted (flags : HdrFlags) (answers : Nat) : Prop :=
  flags.opcode < 5 ∧
    (flags.qr = true ∨ (flags.opcode = 0 → flags.aa = false) ∧ flags.rcode = 0 ∧ answers = 0)

/-- The flags are those of the first bytes. -/
theorem getHdrFlags_front (front body other : List UInt8) (counts counts' : Segment → Nat)
    (four : front.length = 4) :
    getHdrFlags (headerBytes front counts ++ body) =
      getHdrFlags (headerBytes front counts' ++ other) := by
  obtain ⟨b0, b1, b2, b3, rfl⟩ := length_eq_four.mp four
  rfl

theorem validate_accepted {buffer : Buffer} {answers : Nat}
    (isFlags : getHdrFlags buffer = .ok flags) (count : Message.ancount buffer = .ok answers)
    (accepted : Accepted flags answers) : validate buffer = .ok true := by
  obtain ⟨opcode, rest⟩ := accepted
  have low : ¬ flags.opcode ≥ 5 := by omega
  rw [validate, isFlags, bind_ok, if_neg low, count]
  rcases rest with reply | ⟨notAa, noRcode, none⟩
  · simp [reply]
  · by_cases query : flags.opcode = 0
    · simp [query, notAa query, noRcode, none]
    · simp [query, noRcode, none]

/-- A sound message with these sections is read again. -/
theorem read_sections {records : Segment → List RrData}
    (sound : Sound builder front fun segment => (records segment).length)
    (small : builder.buffer.length < 65536) (isFlags : getHdrFlags builder.buffer = .ok flags)
    (accepted : Accepted flags (records .answer).length)
    (placed : PlacedSections builder.buffer headerSize 0 headerSize (sections records)
      builder.buffer.length) :
    ∃ message, createIndex builder.buffer = .ok message ∧
      message.records builder.buffer = .ok (sections records) ∧
      Message.qdcount builder.buffer = .ok (records .question).length ∧
      Message.ancount builder.buffer = .ok (records .answer).length ∧
      Message.nscount builder.buffer = .ok (records .authority).length ∧
      Message.arcount builder.buffer = .ok (records .additional).length := by
  have long := sound.long
  have count : ∀ segment, get16bValueAt builder.buffer (whole builder.buffer)
      (4 + segment.number * 2) = .ok (records segment).length := by
    intro segment
    have bounded := sound.bounded segment
    obtain ⟨body, isBuffer⟩ := sound.header
    have read := get_count body (fun segment => (records segment).length) sound.four segment
      (by omega)
    rwa [← isBuffer] at read
  have qdcount : Message.qdcount builder.buffer = .ok _ := count .question
  have ancount : Message.ancount builder.buffer = .ok _ := count .answer
  have nscount : Message.nscount builder.buffer = .ok _ := count .authority
  have arcount : Message.arcount builder.buffer = .ok _ := count .additional
  obtain ⟨rrsets, indexed, read⟩ := sectionsFrom_placed (sections records) 0 headerSize
    builder.buffer.length (by omega) long placed
  refine ⟨⟨rrsets⟩, ?_, read, qdcount, ancount, nscount, arcount⟩
  have valid := validate_accepted isFlags ancount accepted
  have lengths : (sections records).map List.length = [(records .question).length,
      (records .answer).length, (records .authority).length, (records .additional).length] := rfl
  rw [lengths] at indexed
  simp only [createIndex, valid, qdcount, ancount, nscount, arcount, bind_ok, indexed]
  rfl

/-- A builder with a header and nothing else. -/
structure Fresh (builder : MessageBuilder) (front : List UInt8) : Prop where
  four : front.length = 4
  header : builder.buffer = headerBytes front fun _ => 0
  empty : builder.labels = []

theorem Fresh.sound (fresh : Fresh builder front) : Sound builder front fun _ => 0 := by
  refine ⟨fresh.four, ⟨[], by rw [fresh.header, append_nil]⟩, fun _ => Nat.zero_le _, ?_⟩
  rw [fresh.empty]
  intro known member
  cases member

/-- What was added to the sections is in the message. -/
theorem addSections_adds {added : Segment → List OwnRr} (records : Segment → List RrData)
    (fresh : Fresh builder front) (positive : 0 < builder.maxBufferSize)
    (limit : builder.maxBufferSize < 16384) (valid : ∀ segment, List.Forall₂
      (fun record data => OwnRr.Valid record (segment == .question) data) (added segment)
      (records segment)) (run : addSections added builder = .ok (true, next)) :
    Sound next front (fun segment => (records segment).length) ∧ next.buffer.length ≤ 16384 ∧
      PlacedSections next.buffer headerSize 0 headerSize (sections records)
        next.buffer.length := by
  have twelve : builder.buffer.length = headerSize := by
    rw [fresh.header, length_headerBytes _ fresh.four, headerSize]
  have low : headerSize ≤ 16384 := by decide
  simp only [addSections, bind_eq_ok] at run
  obtain ⟨⟨q, b1⟩, run1, ⟨a, b2⟩, run2, ⟨n, b3⟩, run3, ⟨r, b4⟩, run4, run⟩ := run
  simp only [ok.injEq, Prod.mk.injEq, Bool.and_eq_true] at run
  obtain ⟨⟨⟨⟨rfl, rfl⟩, rfl⟩, rfl⟩, rfl⟩ := run
  have adds1 := addAll_adds fresh.sound (by omega) positive (by omega) (valid .question) run1
  have limit1 := adds1.limit
  have short1 := adds1.short
  have adds2 := addAll_adds adds1.sound (by omega) (by omega) (by omega) (valid .answer) run2
  have limit2 := adds2.limit
  have short2 := adds2.short
  have adds3 := addAll_adds adds2.sound (by omega) (by omega) (by omega) (valid .authority) run3
  have limit3 := adds3.limit
  have short3 := adds3.short
  have adds4 := addAll_adds adds3.sound (by omega) (by omega) (by omega) (valid .additional) run4
  have short4 := adds4.short
  have later3 := adds3.grows.trans adds4.grows
  have later2 := adds2.grows.trans later3
  refine ⟨adds4.sound.congr ?_, by omega, ?_⟩
  · intro segment
    cases segment <;> simp
  · have first := adds1.placed.grown later2
    rw [twelve] at first
    exact ⟨_, first, _, adds2.placed.grown later3, _,
      adds3.placed.grown adds4.grows, _, adds4.placed, rfl⟩

/-- A message that was built from valid records is read as it was built: every section
has the records that were added to it, and the header has their numbers. -/
theorem message_read_as_built (builder final : MessageBuilder) (front : List UInt8)
    (added : Segment → List OwnRr) (records : Segment → List RrData) (flags : HdrFlags)
    (fresh : Fresh builder front) (positive : 0 < builder.maxBufferSize)
    (limit : builder.maxBufferSize < 16384) (valid : ∀ segment, List.Forall₂
      (fun record data => OwnRr.Valid record (segment == .question) data) (added segment)
      (records segment)) (isFlags : getHdrFlags builder.buffer = .ok flags)
    (accepted : Accepted flags (records .answer).length)
    (run : addSections added builder = .ok (true, final)) :
    ∃ message, createIndex final.buffer = .ok message ∧
      message.records final.buffer = .ok (sections records) ∧
      Message.qdcount final.buffer = .ok (records .question).length ∧
      Message.ancount final.buffer = .ok (records .answer).length ∧
      Message.nscount final.buffer = .ok (records .authority).length ∧
      Message.arcount final.buffer = .ok (records .additional).length := by
  obtain ⟨sound, small, placed⟩ := addSections_adds records fresh positive limit valid run
  refine read_sections sound (by omega) ?_ accepted placed
  obtain ⟨body, isBuffer⟩ := sound.header
  have same := getHdrFlags_front front [] body (fun _ => 0) (fun segment => (records segment).length)
    fresh.four
  rw [append_nil, ← fresh.header, ← isBuffer] at same
  rw [← same, isFlags]

/-- The name `www.ex`, which is written from the place 0 of its own buffer. -/
def sampleName : List UInt8 := [3, 0x77, 0x77, 0x77, 2, 0x65, 0x78, 0]

def sampleQuestion : OwnRr := ⟨sampleName ++ [0, 1, 0, 1], ⟨0, 8, ⟨0, 12⟩⟩⟩

/-- An address of the name. -/
def sampleAnswer : OwnRr :=
  ⟨sampleName ++ [0, 1, 0, 1, 0, 0, 0, 60, 0, 4, 1, 2, 3, 4], ⟨0, 8, ⟨0, 22⟩⟩⟩

def sampleAdded : Segment → List OwnRr
  | .question => [sampleQuestion]
  | .answer => [sampleAnswer, sampleAnswer]
  | _ => []

def sampleLabels : List Text := [[0x77, 0x77, 0x77], [0x65, 0x78], []]

def sampleRecords : Segment → List RrData
  | .question => [⟨sampleLabels, 1, 1, 0, []⟩]
  | .answer => [⟨sampleLabels, 1, 1, 60, [1, 2, 3, 4]⟩, ⟨sampleLabels, 1, 1, 60, [1, 2, 3, 4]⟩]
  | _ => []

/-- A builder with the header of a reply, or of a query. -/
def sampleBuilder (qr : Bool) : MessageBuilder :=
  { buffer := headerBytes [0, 7, if qr then 0x80 else 0, 0] fun _ => 0, maxBufferSize := 512 }

theorem sampleAdded_valid (segment : Segment) :
    List.Forall₂ (fun record data => OwnRr.Valid record (segment == .question) data)
      (sampleAdded segment) (sampleRecords segment) := by
  cases segment with
  | question => exact .cons ⟨by decide +kernel, by decide +kernel⟩ .nil
  | answer =>
    have valid : sampleAnswer.Valid false ⟨sampleLabels, 1, 1, 60, [1, 2, 3, 4]⟩ :=
      ⟨by decide +kernel, by decide +kernel⟩
    exact .cons valid (.cons valid .nil)
  | authority => exact .nil
  | additional => exact .nil

/-- A reply with a question and two answers. -/
theorem sample_reply_read_back : ∃ final message,
    addSections sampleAdded (sampleBuilder true) = .ok (true, final) ∧
      final.buffer.length = 56 ∧ createIndex final.buffer = .ok message ∧
      message.records final.buffer = .ok (sections sampleRecords) := by
  have ran : (addSections sampleAdded (sampleBuilder true) >>= fun result =>
      .ok (result.1 && result.2.buffer.length == 56)) = .ok true := by decide +kernel
  simp only [bind_eq_ok, ok.injEq, Bool.and_eq_true, beq_iff_eq] at ran
  obtain ⟨⟨_, final⟩, run, rfl, length⟩ := ran
  obtain ⟨message, indexed, read, _⟩ := message_read_as_built (sampleBuilder true) final _ sampleAdded
    sampleRecords ⟨false, 0, true, 0⟩ ⟨rfl, rfl, rfl⟩ (by decide) (by decide) sampleAdded_valid
    (by decide +kernel) ⟨by decide, Or.inl rfl⟩ run
  exact ⟨final, message, run, length, indexed, read⟩

/-- The same records in a message with the header of a query: all of them are added, and
the message is refused. -/
theorem answers_in_query_refused : ∃ final,
    createHeader { maxBufferSize := 512 } 7 false 0 false = .ok (sampleBuilder false) ∧
      (∀ segment, List.Forall₂
        (fun record data => OwnRr.Valid record (segment == .question) data) (sampleAdded segment)
        (sampleRecords segment)) ∧
      addSections sampleAdded (sampleBuilder false) = .ok (true, final) ∧
      createIndex final.buffer =
        .thrown "Message::createIndex: Invalid message header" := by
  have ran : (addSections sampleAdded (sampleBuilder false) >>= fun result =>
      .ok (result.1 && decide (createIndex result.2.buffer =
        .thrown "Message::createIndex: Invalid message header"))) = .ok true := by decide +kernel
  simp only [bind_eq_ok, ok.injEq, Bool.and_eq_true, decide_eq_true_eq] at ran
  obtain ⟨⟨_, final⟩, run, rfl, refused⟩ := ran
  exact ⟨final, by decide +kernel, sampleAdded_valid, run, refused⟩

end MessageBuilder

end Nsblast.Wire
