import Nsblast.Wire.FillMessage

/-!
# Going on after a refusal

A record may be refused after its name was written: then the bytes of the name are cut
off, but the table of names keeps it. The next name is compared with it through a view
that reaches behind the end of the message. The storage of the buffer is still there, so
what is read are the bytes that were cut off, and a pointer to them is a pointer to
whatever is written in their place.

`addRrIn` has that storage as an argument. Wherever `addRr` returns, it does the same for
every storage; where `addRr` reads behind the end, it reads the storage.

As long as no name is compared with the table after it has kept the name of a refused
record, refusals leave no trace: the message has in each section the records for which
`addRr` returned true. The sections have to be filled in their order, and the parser has
to accept the header.
-/

namespace Nsblast.Wire.MessageBuilder

open Buffer Labels WriteLabels NewHeader List
open Run (Within bind_eq_ok bind_ok within_assert within_refl)
open Message (HdrFlags createIndex getHdrFlags headerSize)

variable {position stop : Nat} (fqdn : Labels) (existing : List KnownName)

section storage

/-- `writeLabels`, with the bytes of the storage behind the end of the buffer. -/
def writeLabelsIn (behind : List UInt8) (fqdn : Labels) (existing : List KnownName)
    (buffer : Buffer) (maxLen : Nat) : Run (Nat × Buffer × List KnownName) :=
  if fqdn.bytes = 1 then
    .ok (if buffer.length + 1 > maxLen then (0, buffer, existing) else (1, buffer ++ [0], existing))
  else do
    let (needle, best, fullMatch) ← choose fqdn existing (buffer ++ behind)
    let name := nameBytes needle best
    if maxLen ≠ 0 ∧ name.length ≥ maxLen then .ok (0, buffer, existing)
    else if fullMatch then .ok (name.length, buffer ++ name, existing)
    else do
      let added ← Labels.parse (buffer ++ name) buffer.length
      .ok (name.length, buffer ++ name,
        existing ++ [⟨added.offset, (buffer ++ name).length, added.count⟩])

/-- `addRr`, with the bytes of the storage behind the end of the message, and what is
there afterwards. -/
def addRrIn (builder : MessageBuilder) (behind : List UInt8) (own : Buffer) (rr : Rr)
    (segment : Segment) : Run (Bool × MessageBuilder × List UInt8) :=
  if builder.maxBufferSize ≠ 0 ∧ builder.buffer.length + rr.size ≥ builder.maxBufferSize then do
    let (added, next) ← builder.truncate segment
    .ok (added, next, behind)
  else do
    let fqdn ← rr.labels own
    let (labelLen, buffer, labels) ←
      writeLabelsIn behind fqdn builder.labels builder.buffer builder.maxBufferSize
    if labelLen = 0 then do
      let (added, next) ← builder.truncate segment
      .ok (added, next, behind)
    else do
      let dataLen ← rr.dataLen own
      if builder.maxBufferSize ≠ 0 ∧ buffer.length + dataLen ≥ builder.maxBufferSize then do
        -- The buffer is resized to what it was, which leaves the bytes of the name.
        let (added, next) ← truncate { builder with labels } segment
        .ok (added, next, buffer.drop builder.buffer.length ++
          behind.drop (buffer.length - builder.buffer.length))
      else do
        let data ← rr.dataSpanAfterLabel own
        let written ← increment segment (buffer ++ data)
        .ok (true, { builder with buffer := written, labels },
          behind.drop (written.length - builder.buffer.length))

section append

variable {buffer behind : Buffer}

theorem read_append (index : Nat) : Within (read buffer index) (read (buffer ++ behind) index) := by
  intro byte isRead
  rw [read_eq_ok] at isRead ⊢
  have inside := (List.getElem?_eq_some_iff.mp isRead).1
  rw [List.getElem?_append_left inside, isRead]

theorem resolvePtr_append (offset : Nat) :
    Within (resolvePtr buffer offset) (resolvePtr (buffer ++ behind) offset) :=
  (read_append offset).bind fun _ => (read_append _).bind fun _ => within_refl _

theorem followPointers_append (remaining location : Nat) :
    Within (followPointers buffer remaining location)
      (followPointers (buffer ++ behind) remaining location) := by
  induction remaining generalizing location with
  | zero =>
    rw [followPointers, followPointers]
    exact (read_append location).bind fun _ => within_refl _
  | succ remaining ih =>
    rw [followPointers, followPointers]
    refine (read_append location).bind fun byte => .ite ?_ (within_refl _)
    refine (resolvePtr_append location).bind fun target => (within_assert ?_).bind fun _ => ih target
    simp only [decide_eq_true_eq, length_append]
    omega

theorem update_append (location : Nat) :
    Within (update buffer location) (update (buffer ++ behind) location) := by
  refine (read_append location).bind fun length => (within_assert ?_).bind fun _ => within_refl _
  simp only [Bool.or_eq_true, decide_eq_true_eq, length_append]
  omega

theorem visit_append (fuel location : Nat) :
    Within (visit buffer fuel location) (visit (buffer ++ behind) fuel location) := by
  induction fuel generalizing location with
  | zero => exact within_refl _
  | succ fuel ih =>
    refine (followPointers_append _ location).bind fun stop => (update_append stop).bind fun view => ?_
    exact .ite (within_refl _) ((ih _).bind fun _ => within_refl _)

theorem readRange_append (start length : Nat) :
    Within (readRange buffer start length) (readRange (buffer ++ behind) start length) := by
  induction length generalizing start with
  | zero => exact within_refl _
  | succ length ih => exact (read_append start).bind fun _ => (ih _).bind fun _ => within_refl _

/-- A name that is read in a buffer is read in a longer one. -/
theorem iterate_append (offset count : Nat) :
    Within (iterate buffer offset count) (iterate (buffer ++ behind) offset count) := by
  refine (visit_append count offset).bind fun views => ?_
  induction views with
  | nil => exact within_refl _
  | cons view rest ih =>
    simp only [mapM_cons]
    exact ((readRange_append _ _).bind fun _ => within_refl _).bind fun _ =>
      ih.bind fun _ => within_refl _

theorem search_append (needle : List Text) (total : Nat) (existing : List KnownName) (best : Match) :
    Within (search buffer needle total existing best)
      (search (buffer ++ behind) needle total existing best) := by
  induction existing generalizing best with
  | nil => exact within_refl _
  | cons known rest ih =>
    rw [search, search, take_append]
    exact .ite (ih best) ((iterate_append _ _).bind fun _ => .ite (within_refl _) (ih _))

/-- A match that is chosen in the message does not depend on what is behind it. -/
theorem choose_append :
    Within (choose fqdn existing buffer) (choose fqdn existing (buffer ++ behind)) :=
  (within_refl _).bind fun _ => (search_append _ _ _ _).bind fun _ => within_refl _

theorem writeLabelsIn_append (maxLen : Nat) :
    Within (writeLabels fqdn existing buffer maxLen)
      (writeLabelsIn behind fqdn existing buffer maxLen) :=
  .ite (within_refl _) ((choose_append fqdn existing).bind fun _ => within_refl _)

end append

/-- Where `addRr` returns, the storage behind the message does not matter. -/
theorem addRrIn_of_ok {builder next : MessageBuilder} {added : Bool} (behind : List UInt8)
    {own : Buffer} {rr : Rr} {segment : Segment}
    (returned : builder.addRr own rr segment = .ok (added, next)) :
    ∃ left, builder.addRrIn behind own rr segment = .ok (added, next, left) := by
  rw [addRr] at returned
  rw [addRrIn]
  split at returned
  · rename_i large
    rw [if_pos large, returned, bind_ok]
    exact ⟨_, rfl⟩
  rename_i fits
  rw [bind_eq_ok] at returned
  obtain ⟨fqdn, isLabels, returned⟩ := returned
  rw [bind_eq_ok] at returned
  obtain ⟨⟨labelLen, buffer, labels⟩, wrote, returned⟩ := returned
  rw [if_neg fits, isLabels, bind_ok, writeLabelsIn_append _ _ _ _ wrote, bind_ok]
  simp only at returned ⊢
  split at returned
  · rename_i notWritten
    rw [if_pos notWritten, returned, bind_ok]
    exact ⟨_, rfl⟩
  rename_i written
  rw [bind_eq_ok] at returned
  obtain ⟨dataLen, isLength, returned⟩ := returned
  rw [if_neg written, isLength, bind_ok]
  split at returned
  · rename_i full
    rw [if_pos full, returned, bind_ok]
    exact ⟨_, rfl⟩
  rename_i room
  simp only [bind_eq_ok] at returned
  obtain ⟨data, copied, buffer', increased, isNext⟩ := returned
  cases isNext
  rw [if_neg room, copied, bind_ok, increased, bind_ok]
  exact ⟨_, rfl⟩

end storage

/-- The calls of a caller that goes on after a refusal, and what they return. -/
def offer : List Addition → MessageBuilder → Run (List Bool × MessageBuilder)
  | [], builder => .ok ([], builder)
  | addition :: rest, builder => do
      let (added, next) ← builder.addRr addition.record.own addition.record.rr addition.segment
      let (more, last) ← offer rest next
      .ok (added :: more, last)

variable {additions : List Addition} {final : MessageBuilder} {results : List Bool}

theorem length_offer {builder : MessageBuilder}
    (returned : offer additions builder = .ok (results, final)) :
    results.length = additions.length := by
  induction additions generalizing builder results with
  | nil =>
    cases returned
    rfl
  | cons addition rest ih =>
    simp only [offer, bind_eq_ok] at returned
    obtain ⟨_, _, _, later, isResult⟩ := returned
    cases isResult
    rw [length_cons, length_cons, ih later]

/-- The same calls with the storage of the buffer. -/
def offerIn : List Addition → MessageBuilder → List UInt8 → Run (List Bool × MessageBuilder × List UInt8)
  | [], builder, behind => .ok ([], builder, behind)
  | addition :: rest, builder, behind => do
      let (added, next, behind) ←
        builder.addRrIn behind addition.record.own addition.record.rr addition.segment
      let (more, last, behind) ← offerIn rest next behind
      .ok (added :: more, last, behind)

theorem offerIn_of_ok {builder : MessageBuilder}
    (behind : List UInt8) (returned : offer additions builder = .ok (results, final)) :
    ∃ left, offerIn additions builder behind = .ok (results, final, left) := by
  induction additions generalizing builder results behind with
  | nil =>
    cases returned
    exact ⟨behind, rfl⟩
  | cons addition rest ih =>
    simp only [offer, bind_eq_ok] at returned
    obtain ⟨⟨added, next⟩, here, ⟨more, last⟩, later, isResult⟩ := returned
    cases isResult
    obtain ⟨left, isLeft⟩ := addRrIn_of_ok behind here
    obtain ⟨left', isLater⟩ := ih left later
    refine ⟨left', ?_⟩
    rw [offerIn, isLeft, bind_ok]
    simp only
    rw [isLater, bind_ok]

/-- The name of the record is compared with the table: it is not the root, and the record
is not refused for its size. -/
def consults (builder : MessageBuilder) (record : OwnRr) : Bool :=
  builder.buffer.length + record.rr.size < builder.maxBufferSize &&
    match record.rr.labels record.own with
    | .ok fqdn => fqdn.bytes != 1
    | _ => true

/-- No name is compared with the table after it has kept the name of a refused record;
`stale` tells whether it has. -/
def heeds : Bool → List Addition → MessageBuilder → Bool
  | _, [], _ => true
  | stale, addition :: rest, builder =>
      !(stale && builder.consults addition.record) &&
        match builder.addRr addition.record.own addition.record.rr addition.segment with
        | .ok (added, next) => heeds (stale || (!added && next.labels != builder.labels)) rest next
        | _ => true

/-- The records for which the call returned true, each with its section. -/
def addedRecords : List Addition → List RrData → List Bool → List (Segment × RrData)
  | addition :: additions, data :: records, true :: results =>
      (addition.segment, data) :: addedRecords additions records results
  | _ :: additions, _ :: records, false :: results => addedRecords additions records results
  | _, _, _ => []

/-- The records of one section. -/
def inSection (records : List (Segment × RrData)) (segment : Segment) : List RrData :=
  (records.filter fun record => record.1 = segment).map Prod.snd

variable {records : List (Segment × RrData)}

section placed

variable {buffer : Buffer} {floor : Nat}

/-- Records of any sections one behind the other. -/
def PlacedEach (buffer : Buffer) (floor : Nat) : Nat → List (Segment × RrData) → Nat → Prop
  | position, [], stop => position = stop
  | position, (segment, data) :: rest, stop => ∃ size,
      Placed buffer floor position (segment == .question) data size ∧
      PlacedEach buffer floor (position + size) rest stop

theorem PlacedEach.split {more : List (Segment × RrData)}
    (placed : PlacedEach buffer floor position (records ++ more) stop) :
    ∃ middle, PlacedEach buffer floor position records middle ∧
      PlacedEach buffer floor middle more stop := by
  induction records generalizing position with
  | nil => exact ⟨position, rfl, placed⟩
  | cons record rest ih =>
    obtain ⟨size, here, later⟩ := placed
    obtain ⟨middle, first, second⟩ := ih later
    exact ⟨middle, ⟨size, here, first⟩, second⟩

theorem PlacedEach.all (segment : Segment) (same : ∀ record ∈ records, record.1 = segment)
    (placed : PlacedEach buffer floor position records stop) :
    PlacedAll buffer floor (segment == .question) position (records.map Prod.snd) stop := by
  induction records generalizing position with
  | nil => exact placed
  | cons record rest ih =>
    obtain ⟨size, here, later⟩ := placed
    rw [same record mem_cons_self] at here
    exact ⟨size, here, ih (fun other member => same other (mem_cons_of_mem _ member)) later⟩

/-- Records that were added in the order of the sections. -/
def InOrder (records : List (Segment × RrData)) : Prop :=
  records.Pairwise fun first second => first.1.number ≤ second.1.number

/-- Records in order are those of the four sections, one section behind the other. -/
theorem InOrder.eq_sections (inOrder : InOrder records) :
    records = (records.filter fun record => record.1 = .question) ++
      ((records.filter fun record => record.1 = .answer) ++
      ((records.filter fun record => record.1 = .authority) ++
      (records.filter fun record => record.1 = .additional))) := by
  induction records with
  | nil => rfl
  | cons record rest ih =>
    obtain ⟨later, inOrder⟩ := pairwise_cons.mp inOrder
    have rest_eq := ih inOrder
    -- No record behind this one is of an earlier section.
    have none : ∀ segment : Segment, segment.number < record.1.number →
        (rest.filter fun other => other.1 = segment) = [] := by
      intro segment lower
      rw [filter_eq_nil_iff]
      intro other member isSegment
      have higher := later other member
      rw [decide_eq_true_eq] at isSegment
      rw [isSegment] at higher
      omega
    obtain ⟨segment, data⟩ := record
    cases segment with
    | question =>
      simp only [filter_cons, reduceCtorEq, decide_false, decide_true, if_true, if_false,
        Bool.false_eq_true, cons_append]
      rw [← rest_eq]
    | answer =>
      have question := none .question (by simp [Segment.number])
      simp only [filter_cons, reduceCtorEq, decide_false, decide_true, if_true, if_false,
        Bool.false_eq_true, question, nil_append, cons_append] at rest_eq ⊢
      rw [← rest_eq]
    | authority =>
      have question := none .question (by simp [Segment.number])
      have answer := none .answer (by simp [Segment.number])
      simp only [filter_cons, reduceCtorEq, decide_false, decide_true, if_true, if_false,
        Bool.false_eq_true, question, answer, nil_append, cons_append] at rest_eq ⊢
      rw [← rest_eq]
    | additional =>
      have question := none .question (by simp [Segment.number])
      have answer := none .answer (by simp [Segment.number])
      have authority := none .authority (by simp [Segment.number])
      simp only [filter_cons, reduceCtorEq, decide_false, decide_true, if_true, if_false,
        Bool.false_eq_true, question, answer, authority, nil_append] at rest_eq ⊢
      rw [← rest_eq]

theorem PlacedEach.sections (inOrder : InOrder records)
    (placed : PlacedEach buffer floor position records stop) :
    PlacedSections buffer floor 0 position (sections (inSection records)) stop := by
  have same : ∀ segment, ∀ record ∈ records.filter (fun record => record.1 = segment),
      record.1 = segment := by
    intro segment record member
    simpa using (mem_filter.mp member).2
  rw [inOrder.eq_sections] at placed
  obtain ⟨second, questions, placed⟩ := placed.split
  obtain ⟨third, answers, placed⟩ := placed.split
  obtain ⟨fourth, authorities, additional⟩ := placed.split
  exact ⟨second, questions.all .question (same _), third, answers.all .answer (same _), fourth,
    authorities.all .authority (same _), stop, additional.all .additional (same _), rfl⟩

end placed

section run

variable {builder next : MessageBuilder} {front : List UInt8} {counts : Segment → Nat}

/-- The header counts records, and the table has names of the message unless it is stale. -/
structure Ready (stale : Bool) (builder : MessageBuilder) (front : List UInt8)
    (counts : Segment → Nat) : Prop where
  bare : Sound { builder with labels := [] } front counts
  table : stale = false →
    Table builder.buffer headerSize builder.buffer.length builder.labels

theorem Ready.sound (ready : Ready false builder front counts) : Sound builder front counts :=
  ⟨ready.bare.four, ready.bare.header, ready.bare.bounded, ready.table rfl⟩

/-- The first bytes of the header, of which a refusal may have changed the flag TC. -/
def SameButTc (front other : List UInt8) : Prop := other = front ∨ other = withTc front

theorem withTc_withTc (front : List UInt8) : withTc (withTc front) = withTc front := by
  have twice : withFlag 0x02 true ∘ withFlag 0x02 true =
      withFlag 0x02 true := by
    funext byte
    simp [Function.comp, withFlag, UInt8.or_assoc]
  rw [withTc, withTc, modify_modify_eq, twice]

theorem SameButTc.trans {first second third : List UInt8} (left : SameButTc first second)
    (right : SameButTc second third) : SameButTc first third := by
  rcases left with rfl | rfl
  · exact right
  · rcases right with rfl | rfl
    · exact .inr rfl
    · exact .inr (withTc_withTc first)

/-- A message after one call: what it has of the record, and whether the table is stale. -/
structure Offered (builder next : MessageBuilder) (front : List UInt8) (counts : Segment → Nat)
    (segment : Segment) (data : RrData) (stale added : Bool) : Prop where
  ready : ∃ other, SameButTc front other ∧
    Ready stale next other (if added then counted counts segment else counts)
  grows : GrownBehind headerSize builder.buffer next.buffer
  placed : if added then ∃ size, Placed next.buffer headerSize builder.buffer.length
      (segment == .question) data size ∧ next.buffer.length = builder.buffer.length + size
    else next.buffer.length = builder.buffer.length
  limit : next.maxBufferSize = builder.maxBufferSize
  short : next.buffer.length ≤ max builder.buffer.length builder.maxBufferSize

variable {added stale : Bool} {segment : Segment} {addition : Addition}

/-- A refusal changes the flag TC at most. The table is stale if it was, or if it has
changed. -/
theorem Ready.truncate (ready : Ready stale builder front counts) (known : List KnownName)
    (segment : Segment) (data : RrData) :
    ∃ next, MessageBuilder.truncate { builder with labels := known } segment = .ok (false, next) ∧
      Offered builder next front counts segment data
        (stale || (!false && next.labels != builder.labels)) false := by
  have kept : ∀ buffer, GrownBehind headerSize builder.buffer buffer →
      buffer.length = builder.buffer.length →
      (stale || (!false && known != builder.labels)) = false →
      Table buffer headerSize buffer.length known := by
    intro buffer grows length notStale
    simp only [Bool.or_eq_false_iff, Bool.not_false, Bool.true_and, bne_eq_false_iff_eq] at notStale
    rw [notStale.2, length]
    exact (ready.table notStale.1).grown (Nat.le_refl _) grows
  by_cases isAnswer : segment = .answer
  · obtain ⟨buffer, changed, reflagged⟩ := ready.bare.changeFlags 2 (withFlag 0x02 true)
      (by omega)
    have length : buffer.length = builder.buffer.length := reflagged.length
    refine ⟨{ builder with buffer, labels := known }, ?_, ⟨withTc front, .inr rfl, reflagged.sound, ?_⟩,
      reflagged.grows, length, rfl, by simp only; omega⟩
    · rw [MessageBuilder.truncate, if_pos isAnswer, setTc]
      rw [changed, bind_ok]
    · exact kept buffer reflagged.grows length
  · refine ⟨{ builder with labels := known }, ?_, ⟨front, .inl rfl, ready.bare, ?_⟩,
      GrownBehind.refl _ _, rfl, rfl, Nat.le_max_left _ _⟩
    · rw [MessageBuilder.truncate, if_neg isAnswer]
    · exact kept builder.buffer (GrownBehind.refl _ _) rfl

variable {data : RrData}

/-- A record that is added to a message with a table of its names. -/
theorem Adds.offered (adds : Adds builder next front counts segment (segment == .question) data) :
    Offered builder next front counts segment data false true := by
  have short := adds.short
  exact ⟨⟨front, .inl rfl, adds.sound.forget, fun _ => adds.sound.table⟩, adds.grows, adds.placed,
    adds.limit, by omega⟩

/-- One call in a message with a table of its names. -/
theorem addRr_offered (ready : Ready false builder front counts)
    (positive : 0 < builder.maxBufferSize) (limit : builder.maxBufferSize ≤ 65535)
    (small : builder.buffer.length ≤ 16384)
    (valid : addition.record.Valid (addition.segment == .question) data) :
    ∃ added next,
      builder.addRr addition.record.own addition.record.rr addition.segment = .ok (added, next) ∧
      Offered builder next front counts addition.segment data
        (!added && next.labels != builder.labels) added := by
  have sound := ready.sound
  have addressable := addressable_short sound valid small
  obtain ⟨fqdn, length, written, known, isLabels, wrote⟩ := addressable.writes sound valid
  obtain ⟨fqdn', labels, fields, content⟩ := valid.content
  cases content.parsed.symm.trans isLabels
  rcases addRr_returns addition.segment sound content positive limit wrote with
    ⟨next, added⟩ | ⟨known, refused⟩
  · exact ⟨true, next, added, (addRr_adds sound limit positive valid addressable.low added).offered⟩
  · obtain ⟨next, truncated, offered⟩ := ready.truncate known addition.segment data
    exact ⟨false, next, refused.trans truncated, offered⟩

/-- A stale table may be any. -/
theorem Offered.relabelled (offered : Offered builder next front counts segment data stale added)
    (known : List KnownName) :
    Offered builder { next with labels := known } front counts segment data true added := by
  obtain ⟨other, sameFront, isReady⟩ := offered.ready
  exact ⟨⟨other, sameFront, isReady.bare, nofun⟩, offered.grows, offered.placed, offered.limit,
    offered.short⟩

/-- One call in a message whose table is stale, for a record that is not compared with it. -/
theorem addRr_offered_stale (ready : Ready true builder front counts)
    (positive : 0 < builder.maxBufferSize) (limit : builder.maxBufferSize ≤ 65535)
    (valid : addition.record.Valid (addition.segment == .question) data)
    (heeded : builder.consults addition.record = false) :
    ∃ added next,
      builder.addRr addition.record.own addition.record.rr addition.segment = .ok (added, next) ∧
      Offered builder next front counts addition.segment data true added := by
  by_cases large : builder.buffer.length + addition.record.rr.size ≥ builder.maxBufferSize
  · obtain ⟨next, truncated, offered⟩ := ready.truncate builder.labels addition.segment data
    refine ⟨false, next, ?_, offered⟩
    rw [addRr, if_pos ⟨by omega, large⟩]
    exact truncated
  obtain ⟨fqdn, labels, fields, content⟩ := valid.content
  have isRoot : fqdn.bytes = 1 := by
    by_contra notRoot
    have small : builder.buffer.length + addition.record.rr.size < builder.maxBufferSize := by omega
    simp [consults, content.parsed, small, notRoot] at heeded
  -- With the root, the table is not looked at: the call is that of a message without one.
  have same := addRr_root builder builder.labels addition.segment content.parsed isRoot
  obtain ⟨length, written, known, wrote⟩ : ∃ length written known,
      writeLabels fqdn [] builder.buffer builder.maxBufferSize = .ok (length, written, known) := by
    rw [writeLabels, if_pos isRoot]
    exact ⟨_, _, _, rfl⟩
  rcases addRr_returns addition.segment ready.bare content positive limit wrote with
    ⟨next, added⟩ | ⟨known, refused⟩
  · have low : LowMatch { builder with labels := [] } addition.record := by
      intro fqdn' _ _ _ isLabels notRoot
      cases content.parsed.symm.trans isLabels
      exact absurd isRoot notRoot
    have adds := addRr_adds ready.bare limit positive valid low added
    rw [added, bind_ok] at same
    have offered := adds.offered.relabelled builder.labels
    exact ⟨true, { next with labels := builder.labels }, same, offered.ready, offered.grows,
      offered.placed, offered.limit, offered.short⟩
  · obtain ⟨next, truncated, offered⟩ := ready.truncate known addition.segment data
    rw [refused, truncated, bind_ok] at same
    exact ⟨false, { next with labels := builder.labels }, same, offered.relabelled builder.labels⟩

/-- What is known after all calls. -/
structure OfferedAll (builder final : MessageBuilder) (front : List UInt8) (counts : Segment → Nat)
    (added : List (Segment × RrData)) : Prop where
  sound : ∃ other, SameButTc front other ∧ Sound { final with labels := [] } other
    fun segment => counts segment + (inSection added segment).length
  grows : GrownBehind headerSize builder.buffer final.buffer
  placed : PlacedEach final.buffer headerSize builder.buffer.length added final.buffer.length
  short : final.buffer.length ≤ max builder.buffer.length builder.maxBufferSize

/-- One call in front of the later ones. -/
theorem Offered.cons (other : List UInt8) (sameFront : SameButTc front other)
    (offered : Offered builder next front counts segment data stale added)
    (later : OfferedAll next final other (if added then counted counts segment else counts) records) :
    OfferedAll builder final front counts
      (if added then (segment, data) :: records else records) := by
  obtain ⟨last, sameLast, sound⟩ := later.sound
  have short := later.short
  have shortHere := offered.short
  have limit := offered.limit
  refine ⟨⟨last, sameFront.trans sameLast, sound.congr fun place => ?_⟩,
    offered.grows.trans later.grows, ?_, by omega⟩
  · cases added with
    | false => rfl
    | true =>
      simp only [counted, inSection, if_true, filter_cons]
      by_cases here : place = segment
      · simp only [here, if_true, decide_true, map_cons, length_cons]
        omega
      · have elsewhere : ¬ segment = place := fun same => here same.symm
        simp [here, elsewhere]
  · have placed := offered.placed
    cases added with
    | false =>
      rw [← placed]
      exact later.placed
    | true =>
      obtain ⟨size, here, length⟩ := placed
      refine ⟨size, here.grown later.grows, ?_⟩
      rw [← length]
      exact later.placed

/-- Over all calls: as long as no name is compared with a stale table, each of them
returns, and the message has the records for which it returned true. -/
theorem offer_offers {additions : List Addition} {records : List RrData}
    (ready : Ready stale builder front counts) (positive : 0 < builder.maxBufferSize)
    (limit : builder.maxBufferSize ≤ 16384) (small : builder.buffer.length ≤ 16384)
    (valid : Forall₂ (fun (addition : Addition) data =>
      addition.record.Valid (addition.segment == .question) data) additions records)
    (heeded : heeds stale additions builder = true) :
    ∃ results final, offer additions builder = .ok (results, final) ∧
      OfferedAll builder final front counts (addedRecords additions records results) := by
  induction valid generalizing builder front counts stale with
  | nil =>
    refine ⟨[], builder, rfl, ⟨⟨front, .inl rfl, ready.bare⟩, GrownBehind.refl _ _, rfl, ?_⟩⟩
    exact Nat.le_max_left _ _
  | @cons addition data additions records isValid valid ih =>
    simp only [heeds, Bool.and_eq_true, Bool.not_eq_true', Bool.and_eq_false_imp] at heeded
    obtain ⟨here, later⟩ := heeded
    obtain ⟨added, next, returned, offered⟩ : ∃ added next,
        builder.addRr addition.record.own addition.record.rr addition.segment = .ok (added, next) ∧
        Offered builder next front counts addition.segment data
          (stale || (!added && next.labels != builder.labels)) added := by
      cases stale with
      | false => exact addRr_offered ready positive (by omega) small isValid
      | true => exact addRr_offered_stale ready positive (by omega) isValid (here rfl)
    obtain ⟨other, sameFront, isReady⟩ := offered.ready
    have sameLimit := offered.limit
    have short := offered.short
    rw [returned] at later
    obtain ⟨results, final, ran, all⟩ := ih isReady (by omega) (by omega) (by omega) later
    refine ⟨added :: results, final, ?_, ?_⟩
    · rw [offer, returned, bind_ok]
      simp only
      rw [ran, bind_ok]
    · have together := offered.cons other sameFront all
      cases added with
      | false => exact together
      | true => exact together

/-- The flag TC is not among those the parser looks at. -/
theorem getHdrFlags_withTc (front body : List UInt8) (counts : Segment → Nat)
    (four : front.length = 4) :
    getHdrFlags (headerBytes (withTc front) counts ++ body) =
      getHdrFlags (headerBytes front counts ++ body) := by
  have quarter : ∀ byte : UInt8, (withFlag 0x02 true byte).toNat / 4 = byte.toNat / 4 := by
    intro byte
    have shifted : (byte.toNat ||| 2) >>> 2 = byte.toNat >>> 2 ||| 2 >>> 2 := Nat.shiftRight_or_distrib
    simpa [withFlag, Nat.shiftRight_eq_div_pow] using shifted
  obtain ⟨b0, b1, b2, b3, rfl⟩ := length_eq_four.mp four
  have byte := quarter b2
  have eighth : (withFlag 0x02 true b2).toNat / 8 = b2.toNat / 8 := by omega
  have highest : (withFlag 0x02 true b2).toNat / 128 = b2.toNat / 128 := by omega
  show Run.ok (HdrFlags.mk _ _ _ _) = Run.ok (HdrFlags.mk _ _ _ _)
  rw [byte, eighth, highest]

theorem SameButTc.getHdrFlags {other : List UInt8} (same : SameButTc front other)
    (four : front.length = 4) (body body' : List UInt8) (counts counts' : Segment → Nat) :
    getHdrFlags (headerBytes other counts' ++ body') =
      getHdrFlags (headerBytes front counts ++ body) := by
  rcases same with rfl | rfl
  · exact getHdrFlags_front _ _ _ _ _ four
  · rw [getHdrFlags_withTc front body' counts' four]
    exact getHdrFlags_front _ _ _ _ _ four

theorem mem_addedRecords {records : List RrData}
    {added : Segment × RrData} (member : added ∈ addedRecords additions records results) :
    ∃ addition ∈ additions, addition.segment = added.1 := by
  fun_induction addedRecords additions records results with
  | case1 addition additions data records results ih =>
    rcases mem_cons.mp member with rfl | later
    · exact ⟨addition, mem_cons_self, rfl⟩
    · obtain ⟨other, isOther, same⟩ := ih later
      exact ⟨other, mem_cons_of_mem _ isOther, same⟩
  | case2 addition additions data records results ih =>
    obtain ⟨other, isOther, same⟩ := ih member
    exact ⟨other, mem_cons_of_mem _ isOther, same⟩
  | case3 => cases member

/-- Calls in the order of the sections add records in that order. -/
theorem addedRecords_inOrder (records : List RrData) (results : List Bool)
    (inOrder : additions.Pairwise fun first second => first.segment.number ≤ second.segment.number) :
    InOrder (addedRecords additions records results) := by
  fun_induction addedRecords additions records results with
  | case1 addition additions data records results ih =>
    obtain ⟨later, inOrder⟩ := pairwise_cons.mp inOrder
    refine pairwise_cons.mpr ⟨fun added member => ?_, ih inOrder⟩
    obtain ⟨other, isOther, same⟩ := mem_addedRecords member
    rw [← same]
    exact later other isOther
  | case2 addition additions data records results ih =>
    exact ih (pairwise_cons.mp inOrder).2
  | case3 => exact Pairwise.nil

end run

/-- A caller goes on after refusals. If no name is compared with the table after it has
kept the name of a refused record, all calls return, whatever stands in the storage
behind the message, and the message has in each section exactly the records for which
the call returned true. -/
theorem refusals_leave_no_trace (builder : MessageBuilder) (front : List UInt8)
    (additions : List Addition) (records : List RrData) (flags : HdrFlags)
    (fresh : Fresh builder front) (positive : 0 < builder.maxBufferSize)
    (limit : builder.maxBufferSize < 16384) (valid : Forall₂ (fun (addition : Addition) data =>
      addition.record.Valid (addition.segment == .question) data) additions records)
    (inOrder : additions.Pairwise fun first second => first.segment.number ≤ second.segment.number)
    (isFlags : getHdrFlags builder.buffer = .ok flags)
    (heeded : heeds false additions builder = true) :
    ∃ results final, (∀ behind, ∃ left, offerIn additions builder behind = .ok (results, final, left)) ∧
      results.length = additions.length ∧
      (Accepted flags (inSection (addedRecords additions records results) .answer).length →
        ∃ message, createIndex final.buffer = .ok message ∧
          message.records final.buffer =
            .ok (sections (inSection (addedRecords additions records results)))) := by
  have twelve : builder.buffer.length = headerSize := by
    rw [fresh.header, length_headerBytes _ fresh.four, headerSize]
  have low : headerSize ≤ 16384 := by decide
  obtain ⟨results, final, ran, all⟩ := offer_offers
    ⟨fresh.sound.forget, fun _ => fresh.sound.table⟩ positive (by omega) (by omega) valid heeded
  obtain ⟨other, sameFront, sound⟩ := all.sound
  have short := all.short
  refine ⟨results, final, fun behind => offerIn_of_ok behind ran, length_offer ran,
    fun accepted => ?_⟩
  have sound' := sound.congr fun segment => Nat.zero_add _
  have placed := all.placed.sections (addedRecords_inOrder records results inOrder)
  rw [twelve] at placed
  obtain ⟨body, isBuffer⟩ := sound.header
  have sameFlags := sameFront.getHdrFlags fresh.four [] body (fun _ => 0)
    (fun segment => 0 + (inSection (addedRecords additions records results) segment).length)
  rw [append_nil, ← fresh.header, isFlags] at sameFlags
  rw [← isBuffer] at sameFlags
  obtain ⟨message, indexed, read, _⟩ := read_sections sound' (by simp only; omega) sameFlags
    accepted placed
  exact ⟨message, indexed, read⟩

section sample

/-- A text of 485 bytes, stored behind the address of the same name: its name is a pointer
to that of the address. -/
def textFields : List UInt8 := [0, 16, 0, 1, 0, 0, 0, 60, 1, 229] ++ replicate 485 0

def textRecord : OwnRr := ⟨sampleAnswer.own ++ [0xC0, 0] ++ textFields, rrAt 22 2 textFields⟩

theorem textRecord_valid :
    textRecord.Valid false ⟨sampleLabels, 16, 1, 60, replicate 485 0⟩ :=
  ⟨by decide +kernel, by decide +kernel⟩

theorem sampleAnswer_valid : sampleAnswer.Valid false ⟨sampleLabels, 1, 1, 60, [1, 2, 3, 4]⟩ :=
  ⟨by decide +kernel, by decide +kernel⟩

def refusedAdditions : List Addition :=
  [⟨sampleQuestion, .question⟩, ⟨textRecord, .answer⟩, ⟨sampleAnswer, .answer⟩]

def refusedRecords : List RrData :=
  [⟨sampleLabels, 1, 1, 0, []⟩, ⟨sampleLabels, 16, 1, 60, replicate 485 0⟩,
    ⟨sampleLabels, 1, 1, 60, [1, 2, 3, 4]⟩]

/-- Behind a question for the name, the text is refused for its size, and the address
behind it is added. -/
theorem refused_text_leaves_no_trace : ∃ final message,
    (∀ behind, ∃ left, offerIn refusedAdditions (sampleBuilder true) behind =
      .ok ([true, false, true], final, left)) ∧
    createIndex final.buffer = .ok message ∧
    message.records final.buffer = .ok [[⟨sampleLabels, 1, 1, 0, []⟩],
      [⟨sampleLabels, 1, 1, 60, [1, 2, 3, 4]⟩], [], []] := by
  have question : sampleQuestion.Valid true ⟨sampleLabels, 1, 1, 0, []⟩ :=
    ⟨by decide +kernel, by decide +kernel⟩
  obtain ⟨results, final, ran, _, read⟩ := refusals_leave_no_trace (sampleBuilder true) _
    refusedAdditions refusedRecords ⟨false, 0, true, 0⟩ ⟨rfl, rfl, rfl⟩ (by decide) (by decide)
    (.cons question (.cons textRecord_valid (.cons sampleAnswer_valid .nil))) (by decide)
    (by decide +kernel) (by decide +kernel)
  have evaluated : (offerIn refusedAdditions (sampleBuilder true) [] >>= fun result =>
      .ok result.1) = .ok [true, false, true] := by decide +kernel
  obtain ⟨left, isLeft⟩ := ran []
  rw [isLeft, bind_ok] at evaluated
  cases evaluated
  obtain ⟨message, indexed, records⟩ := read ⟨by decide, .inl rfl⟩
  exact ⟨final, message, ran, indexed, records⟩

/-- Without the question, the text is refused after its name was written. The address has
the same name, which is found in the table and written as a pointer to the place where
it was: that is the pointer itself. Both records are valid, the second is added, and it
cannot be read. -/
theorem pointer_to_itself : ∃ final left message,
    textRecord.Valid false ⟨sampleLabels, 16, 1, 60, replicate 485 0⟩ ∧
    sampleAnswer.Valid false ⟨sampleLabels, 1, 1, 60, [1, 2, 3, 4]⟩ ∧
    Fresh (sampleBuilder true) [0, 7, 0x80, 0] ∧ (sampleBuilder true).maxBufferSize = 512 ∧
    offerIn [⟨textRecord, .answer⟩, ⟨sampleAnswer, .answer⟩] (sampleBuilder true) [] =
      .ok ([false, true], final, left) ∧
    final.buffer.drop 12 = [0xC0, 12, 0, 1, 0, 1, 0, 0, 0, 60, 0, 4, 1, 2, 3, 4] ∧
    createIndex final.buffer = .ok message ∧
    message.records final.buffer = .thrown "Labels::parse: Found a recursive pointer." := by
  have ran : (offerIn [⟨textRecord, .answer⟩, ⟨sampleAnswer, .answer⟩] (sampleBuilder true) [] >>=
      fun result => createIndex result.2.1.buffer >>= fun message =>
        .ok (result.1 == [false, true] &&
          result.2.1.buffer.drop 12 == [0xC0, 12, 0, 1, 0, 1, 0, 0, 0, 60, 0, 4, 1, 2, 3, 4] &&
          message.records result.2.1.buffer ==
            .thrown "Labels::parse: Found a recursive pointer.")) = .ok true := by decide +kernel
  simp only [bind_eq_ok, Run.ok.injEq, Bool.and_eq_true, beq_iff_eq] at ran
  obtain ⟨⟨_, final, left⟩, isFinal, message, indexed, ⟨rfl, bytes⟩, thrown⟩ := ran
  exact ⟨final, left, message, textRecord_valid, sampleAnswer_valid, ⟨rfl, rfl, rfl⟩, rfl, isFinal,
    bytes, indexed, thrown⟩

end sample

end Nsblast.Wire.MessageBuilder
