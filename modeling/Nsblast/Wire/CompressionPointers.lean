import Nsblast.Wire.KnownNames

/-!
# Where compression pointers lead

`writeLabels` keeps the place of the longest match in 32 bits and writes it with
`writeNamePtr`, which has fourteen bits for it: the two highest bits of the first byte are
the tag. The limits of the server go up to 65535 bytes.

A pointer leads to the end of a name it was chosen for if, and only if, that place is in
front of 16384. The condition is on the places that are chosen; a message that stays
below 16384 bytes meets it.
-/

namespace Nsblast.Wire.MessageBuilder

open List hiding choose
open Buffer Labels WriteLabels Run Message

/-- A pointer that is written: where it is, the match it was chosen for, and the labels
from the match on, with the root. -/
structure Pointer where
  position : Nat
  target : Nat
  ending : List Text
  deriving DecidableEq, Repr

/-- The pointer that adding a record writes. -/
def emitted (builder : MessageBuilder) (record : OwnRr) : Run (List Pointer) := do
  let fqdn ← record.rr.labels record.own
  if fqdn.bytes = 1 then .ok []
  else do
    let (needle, best, _) ← choose fqdn builder.labels builder.buffer
    let segments := needle.take (needle.length - best.count)
    .ok (best.location.toList.map fun target =>
      ⟨builder.buffer.length + (segments.flatMap labelBytes).length, target,
        needle.drop (needle.length - best.count)⟩)

/-- A call of `addRr`. -/
structure Addition where
  record : OwnRr
  segment : Segment

/-- Calls of `addRr`, whether all of them have added their record, and the pointers that
were written. -/
def addRecords : List Addition → MessageBuilder → Run (Bool × MessageBuilder × List Pointer)
  | [], builder => .ok (true, builder, [])
  | addition :: rest, builder => do
      let pointers ← builder.emitted addition.record
      let (added, next) ← builder.addRr addition.record.own addition.record.rr addition.segment
      let (all, last, more) ← addRecords rest next
      .ok (added && all, last, pointers ++ more)

/-- The pointer is read as the match it was chosen for, which lies in front of it, and
the labels it stands for are found there. -/
structure Resolves (buffer : Buffer) (pointer : Pointer) : Prop where
  read : resolvePtr buffer pointer.position = .ok pointer.target
  earlier : pointer.target < pointer.position
  found : ∃ pairs, iterate buffer pointer.target pointer.ending.length = .ok pairs ∧
    pairs.map Prod.snd = pointer.ending

variable {pointers : List Pointer} {record : OwnRr} {data : RrData}

section kept

variable {builder next : MessageBuilder}

/-- Only the header changes when a record is counted. -/
theorem increment_kept {segment : Segment} {buffer other : Buffer}
    (increased : NewHeader.increment segment buffer = .ok other) :
    GrownBehind headerSize buffer other ∧ other.length = buffer.length := by
  simp only [NewHeader.increment, inc16BitValueAt, set16bValueAt, bind_eq_ok] at increased
  obtain ⟨value, _, _, inside, isOther⟩ := increased
  have within : 4 + segment.number * 2 + 1 < buffer.length := by
    by_contra outside
    rw [throwIf_of (by omega)] at inside
    cases inside
  have low : 4 + segment.number * 2 + 2 ≤ headerSize := by
    cases segment <;> decide
  cases isOther
  have length : (buffer.take (4 + segment.number * 2) ++ be16 ((value + 1) % 65536)).length =
      4 + segment.number * 2 + 2 := by
    rw [length_append, length_take]
    rw [length_bigEndian]
    omega
  refine ⟨⟨[], ?_⟩, ?_⟩
  · rw [append_nil, drop_append, length, drop_drop, drop_eq_nil_of_le (by omega),
      nil_append]
    congr 1
    omega
  · rw [length_append, length, length_drop]
    omega

/-- A name that is written is appended. -/
theorem writeLabels_appends {fqdn : Labels} {existing known : List KnownName}
    {buffer written : Buffer} {maxLen length : Nat}
    (wrote : writeLabels fqdn existing buffer maxLen = .ok (length, written, known))
    (notZero : length ≠ 0) :
    (fqdn.bytes = 1 ∧ written = buffer ++ [0]) ∨
      fqdn.bytes ≠ 1 ∧ ∃ needle best fullMatch,
        choose fqdn existing buffer = .ok (needle, best, fullMatch) ∧
        written = buffer ++ nameBytes needle best := by
  rw [writeLabels] at wrote
  split at wrote
  · rename_i isRoot
    split at wrote
    · cases wrote
      exact absurd rfl notZero
    · cases wrote
      exact Or.inl ⟨isRoot, rfl⟩
  · rename_i notRoot
    rw [bind_eq_ok] at wrote
    obtain ⟨⟨needle, best, fullMatch⟩, chosen, wrote⟩ := wrote
    refine Or.inr ⟨notRoot, needle, best, fullMatch, chosen, ?_⟩
    simp only at wrote
    split at wrote
    · cases wrote
      exact absurd rfl notZero
    split at wrote
    · cases wrote
      rfl
    · rw [bind_eq_ok] at wrote
      obtain ⟨_, _, wrote⟩ := wrote
      cases wrote
      rfl

/-- The message keeps what it has, and has the pointers that were written. -/
theorem addRr_pointers {addition : Addition} (long : headerSize ≤ builder.buffer.length)
    (wrote : builder.emitted addition.record = .ok pointers)
    (added : builder.addRr addition.record.own addition.record.rr addition.segment = .ok (true, next)) :
    GrownBehind headerSize builder.buffer next.buffer ∧
      builder.buffer.length ≤ next.buffer.length ∧
      ∀ pointer ∈ pointers, builder.buffer.length ≤ pointer.position ∧
        PartAt next.buffer pointer.position (pointerBytes pointer.target) := by
  obtain ⟨fqdn, labelLen, written, known, dataLen, data, buffer, isLabels, wroteLabels, notZero, _, _, _,
    increased, rfl⟩ := addRr_eq_true addition.record added
  obtain ⟨grows, length⟩ := increment_kept increased
  have appended := writeLabels_appends wroteLabels notZero
  obtain ⟨name, isWritten⟩ : ∃ name, written = builder.buffer ++ name := by
    rcases appended with ⟨_, isWritten⟩ | ⟨_, needle, best, _, _, isWritten⟩
    · exact ⟨_, isWritten⟩
    · exact ⟨_, isWritten⟩
  subst isWritten
  refine ⟨?_, ?_, ?_⟩
  · rw [append_assoc] at grows
    exact (GrownBehind.append _ _ _ long).trans grows
  · simp only [length, length_append]
    omega
  · intro pointer member
    rw [emitted, isLabels, bind_ok] at wrote
    rcases appended with ⟨isRoot, _⟩ | ⟨notRoot, needle, best, fullMatch, chosen, isWritten⟩
    · rw [if_pos isRoot] at wrote
      cases wrote
      cases member
    · rw [if_neg notRoot, chosen, bind_ok] at wrote
      cases wrote
      rw [mem_map] at member
      obtain ⟨target, isTarget, rfl⟩ := member
      rw [Option.mem_toList] at isTarget
      refine ⟨Nat.le_add_right _ _, ?_⟩
      have isName : name = nameBytes needle best := append_cancel_left isWritten
      rw [isName, nameBytes, isTarget, Option.elim_some, append_assoc] at grows
      have stands := PartAt.at_end builder.buffer ((take (needle.length - best.count)
        needle).flatMap labelBytes ++ pointerBytes target) data
      exact stands.right.grown grows (Nat.le_add_right_of_le long)

/-- Over a run, the message keeps what it has and has the pointers that were written. -/
theorem addRecords_pointers {additions : List Addition} (long : headerSize ≤ builder.buffer.length)
    (run : addRecords additions builder = .ok (true, next, pointers)) :
    GrownBehind headerSize builder.buffer next.buffer ∧
      ∀ pointer ∈ pointers, PartAt next.buffer pointer.position (pointerBytes pointer.target) := by
  induction additions generalizing builder pointers with
  | nil =>
    cases run
    exact ⟨GrownBehind.refl _ _, by simp⟩
  | cons addition rest ih =>
    simp only [addRecords, bind_eq_ok] at run
    obtain ⟨here, wrote, ⟨added, middle⟩, isAdded, ⟨all, last, more⟩, later, run⟩ := run
    simp only [ok.injEq, Prod.mk.injEq, Bool.and_eq_true] at run
    obtain ⟨⟨rfl, rfl⟩, rfl, rfl⟩ := run
    obtain ⟨grows, longer, stand⟩ := addRr_pointers long wrote isAdded
    obtain ⟨growsLater, standLater⟩ := ih (Nat.le_trans long longer) later
    refine ⟨grows.trans growsLater, ?_⟩
    intro pointer member
    rcases mem_append.mp member with first | later
    · obtain ⟨behind, stands⟩ := stand pointer first
      exact stands.grown growsLater (by omega)
    · exact standLater pointer later

end kept

section sound

variable {builder next : MessageBuilder} {front : List UInt8} {counts : Segment → Nat}

/-- The match of a pointer, in the message it is written to. -/
theorem emitted_begins {isQuestion : Bool} (sound : Sound builder front counts)
    (valid : record.Valid isQuestion data) (wrote : builder.emitted record = .ok pointers) :
    ∀ pointer ∈ pointers, pointer.target < pointer.position ∧ ∃ rest,
      pointer.ending = rest ++ [[]] ∧
      Begins builder.buffer headerSize pointer.target rest := by
  obtain ⟨fqdn, labels, fields, content⟩ := valid.content
  obtain ⟨best, fullMatch, chosen, found, _⟩ := choose_spec
    content.named sound.table
  intro pointer member
  rw [emitted, content.parsed, bind_ok] at wrote
  split at wrote
  · cases wrote
    cases member
  · rw [chosen, bind_ok] at wrote
    cases wrote
    rw [mem_map] at member
    obtain ⟨target, isTarget, rfl⟩ := member
    rw [Option.mem_toList] at isTarget
    rcases found with none | ⟨location, rest, isMatch, ⟨⟨start, isLabels⟩, begins, low⟩⟩
    · rw [none] at isTarget
      cases isTarget
    · rw [isMatch] at isTarget
      cases isTarget
      refine ⟨by simp only; omega, rest, ?_, begins⟩
      have count : (start ++ rest ++ [([] : Text)]).length - (rest.length + 1) = start.length := by
        simp only [length_append, length_singleton]
        omega
      rw [isMatch, ← isLabels, count, append_assoc, drop_left]

/-- Matches in front of 16384 can be written. -/
theorem emitted_lowMatch (wrote : builder.emitted record = .ok pointers)
    (low : ∀ pointer ∈ pointers, pointer.target < 16384) : LowMatch builder record := by
  intro fqdn needle best fullMatch isLabels notRoot chosen location member
  rw [emitted, isLabels, bind_ok, if_neg notRoot, chosen, bind_ok] at wrote
  cases wrote
  exact low _ (mem_map_of_mem (Option.mem_toList.mpr member))

/-- Over a run whose matches are in front of 16384, every pointer leads to the labels it
was chosen for. -/
theorem addRecords_found (additions : List Addition) (pointers : List Pointer)
    (sound : Sound builder front counts) (limit : builder.maxBufferSize ≤ 65535)
    (positive : 0 < builder.maxBufferSize)
    (valid : ∀ addition ∈ additions, ∃ isQuestion data, addition.record.Valid isQuestion data)
    (low : ∀ pointer ∈ pointers, pointer.target < 16384)
    (run : addRecords additions builder = .ok (true, next, pointers)) :
    ∀ pointer ∈ pointers, pointer.target < pointer.position ∧ ∃ rest,
      pointer.ending = rest ++ [[]] ∧ Begins next.buffer headerSize pointer.target rest := by
  induction additions generalizing builder counts pointers with
  | nil =>
    cases run
    simp
  | cons addition rest ih =>
    simp only [addRecords, bind_eq_ok] at run
    obtain ⟨here, wrote, ⟨added, middle⟩, isAdded, ⟨all, last, more⟩, later, run⟩ := run
    simp only [ok.injEq, Prod.mk.injEq, Bool.and_eq_true] at run
    obtain ⟨⟨rfl, rfl⟩, rfl, rfl⟩ := run
    obtain ⟨isQuestion, data, isValid⟩ := valid addition mem_cons_self
    have lowHere := emitted_lowMatch wrote
      fun pointer member => low pointer (mem_append_left more member)
    have adds := addRr_adds sound limit positive isValid lowHere isAdded
    have same := adds.limit
    intro pointer member
    rcases mem_append.mp member with first | later'
    · obtain ⟨earlier, ending, isEnding, begins⟩ := emitted_begins sound isValid wrote pointer first
      have grows := (addRecords_pointers adds.sound.long later).1
      exact ⟨earlier, ending, isEnding, (begins.grown adds.grows).grown grows⟩
    · exact ih more adds.sound (by omega) (by omega)
        (fun addition member => valid addition (mem_cons_of_mem _ member))
        (fun pointer member => low pointer (mem_append_right here member)) later pointer later'

end sound

/-- In a message of any limit, the pointers lead to the ends of names they were chosen for
exactly if all of these are in front of 16384. -/
theorem pointers_resolve_iff_low (builder final : MessageBuilder) (front : List UInt8)
    (additions : List Addition) (pointers : List Pointer) (fresh : Fresh builder front)
    (positive : 0 < builder.maxBufferSize) (limit : builder.maxBufferSize ≤ 65535)
    (valid : ∀ addition ∈ additions, ∃ isQuestion data, addition.record.Valid isQuestion data)
    (run : addRecords additions builder = .ok (true, final, pointers)) :
    (∀ pointer ∈ pointers, Resolves final.buffer pointer) ↔
      ∀ pointer ∈ pointers, pointer.target < 16384 := by
  have sound := fresh.sound
  obtain ⟨_, stand⟩ := addRecords_pointers sound.long run
  constructor
  · intro resolve pointer member
    have read := (resolve pointer member).read
    rw [resolvePtr_pointerBytes (stand pointer member)] at read
    rw [← ok.inj read]
    exact Nat.mod_lt _ (by decide)
  · intro low pointer member
    obtain ⟨earlier, rest, isEnding, begins⟩ :=
      addRecords_found additions pointers sound limit positive valid low run pointer member
    obtain ⟨origin, extent, first, begun, _, _, spelled⟩ := begins
    obtain ⟨pairs, iterated, texts⟩ := iterate_spelled spelled begun
    refine ⟨?_, earlier, pairs, ?_, ?_⟩
    · rw [resolvePtr_pointerBytes (stand pointer member), Nat.mod_eq_of_lt (low pointer member)]
    · rw [isEnding, length_append, length_singleton, iterated]
    · rw [texts, isEnding]

section sample

/-- Two answers for the same name. -/
def sampleAdditions : List Addition :=
  [⟨sampleQuestion, .question⟩, ⟨sampleAnswer, .answer⟩, ⟨sampleAnswer, .answer⟩]

/-- Both answers point to the name of the question. -/
theorem sample_pointers_resolve : ∃ final pointers,
    addRecords sampleAdditions (sampleBuilder true) = .ok (true, final, pointers) ∧
      pointers.map (·.target) = [12, 12] ∧ ∀ pointer ∈ pointers, Resolves final.buffer pointer := by
  have ran : (addRecords sampleAdditions (sampleBuilder true) >>= fun result =>
      .ok (result.1 && result.2.2.map (·.target) == [12, 12])) = .ok true := by decide +kernel
  simp only [bind_eq_ok, ok.injEq, Bool.and_eq_true, beq_iff_eq] at ran
  obtain ⟨⟨_, final, pointers⟩, run, rfl, targets⟩ := ran
  refine ⟨final, pointers, run, targets, ?_⟩
  refine (pointers_resolve_iff_low (sampleBuilder true) final _ sampleAdditions pointers
    ⟨rfl, rfl, rfl⟩ (by decide) (by decide) ?_ run).mpr ?_
  · intro addition member
    simp only [sampleAdditions, mem_cons, not_mem_nil, or_false] at member
    rcases member with rfl | rfl | rfl
    · exact ⟨true, ⟨sampleLabels, 1, 1, 0, []⟩, by decide +kernel, by decide +kernel⟩
    · exact ⟨false, ⟨sampleLabels, 1, 1, 60, [1, 2, 3, 4]⟩, by decide +kernel, by decide +kernel⟩
    · exact ⟨false, ⟨sampleLabels, 1, 1, 60, [1, 2, 3, 4]⟩, by decide +kernel, by decide +kernel⟩
  · intro pointer member
    have isTarget : pointer.target ∈ pointers.map (·.target) := mem_map_of_mem member
    rw [targets] at isTarget
    simp only [mem_cons, not_mem_nil, or_false, or_self] at isTarget
    omega

/-- The fields of a record of the root with 16400 bytes of data. -/
def bigFields : List UInt8 := [0, 10, 0, 1, 0, 0, 0, 0, 0x40, 0x10] ++ replicate 16400 0

def bigRecord : OwnRr := ⟨[0] ++ bigFields, rrAt 0 1 bigFields⟩

theorem length_bigFields : bigFields.length = 16410 := by
  rw [bigFields, length_append, length_replicate]
  rfl

/-- A record of the name `b`. -/
def smallFields : List UInt8 := [0, 1, 0, 1, 0, 0, 0, 60, 0, 4, 1, 2, 3, 4]

def smallRecord : OwnRr := ⟨[1, 0x62, 0] ++ smallFields, rrAt 0 3 smallFields⟩

/-- A record of the root is valid, and its name takes one byte. -/
theorem rootRecord_content {fields : List UInt8} (small : fields.length < 65535)
    (isFields : Fields false fields) (reads : fieldsData [[]] false fields = .ok data) :
    OwnRr.Valid ⟨[0] ++ fields, rrAt 0 1 fields⟩ false data ∧
      ∃ fqdn labels copy, OwnRr.Content ⟨[0] ++ fields, rrAt 0 1 fields⟩ false data fqdn labels copy ∧
        fqdn.bytes = 1 ∧ copy.length = fields.length := by
  have length : ([0] ++ fields).length ≤ 65535 := by
    rw [length_append, length_singleton]
    omega
  have spelled : Spelled ([0] ++ fields) 0 0 0 [] 1 :=
    .root 0 0 (Nat.le_refl _) (by omega) (prefix_append _ _)
  obtain ⟨parsed, same⟩ := parse_placed (by omega) spelled (by decide)
    (prefix_refl _) isFields
  have valid : OwnRr.Valid ⟨[0] ++ fields, rrAt 0 1 fields⟩ false data := ⟨parsed, same.trans reads⟩
  obtain ⟨fqdn, labels, copy, content⟩ := valid.content
  have isRoot := parse_spelled ([0] ++ fields) 0 0 1 spelled (by decide)
  have one : fqdn.bytes = 1 := by
    cases content.parsed.symm.trans isRoot
    rfl
  have size : 1 + fields.length = fqdn.bytes + copy.length := content.size
  exact ⟨valid, fqdn, labels, copy, content, one, by omega⟩

theorem bigRecord_content : ∃ data fqdn labels fields, bigRecord.Valid false data ∧
    bigRecord.Content false data fqdn labels fields ∧ fqdn.bytes = 1 ∧ fields.length = 16410 := by
  have length := length_bigFields
  have isFields : Fields false bigFields := by
    simp only [Fields, Bool.false_eq_true, if_false, length]
    refine ⟨by omega, ?_⟩
    rw [get16bValueAt, getValueAt_accepted _ (by omega) (by simp only [whole]; omega)]
    rfl
  have reads : fieldsData [[]] false bigFields = .ok ⟨[[]], 10, 1, 0, replicate 16400 0⟩ := by
    rw [fieldsData, get16bValueAt, get16bValueAt, get32bValueAt,
      getValueAt_accepted _ (by omega) (by simp only [whole]; omega),
      getValueAt_accepted _ (by omega) (by simp only [whole]; omega),
      getValueAt_accepted _ (by omega) (by simp only [whole]; omega)]
    rfl
  obtain ⟨valid, fqdn, labels, copy, content, one, same⟩ := rootRecord_content
    (by omega) isFields reads
  exact ⟨_, fqdn, labels, copy, valid, content, one, same.trans length⟩

theorem smallRecord_valid : smallRecord.Valid false ⟨[[0x62], []], 1, 1, 60, [1, 2, 3, 4]⟩ :=
  ⟨by decide +kernel, by decide +kernel⟩

variable {builder : MessageBuilder} {front : List UInt8} {counts : Segment → Nat}
  (sound : Sound builder front counts) (limit : builder.maxBufferSize = 65535)
  (room : builder.buffer.length < 64000)
include sound limit room

/-- With an empty table, a name is written out, and known from there on. -/
theorem first_copy (empty : builder.labels = []) :
    ∃ next, builder.addRr smallRecord.own smallRecord.rr .answer = .ok (true, next) ∧
      builder.emitted smallRecord = .ok [] ∧ next.buffer.length = builder.buffer.length + 17 ∧
      next.labels = [newName builder.buffer [1, 0x62, 0] [[0x62]]] ∧
      Known next.buffer headerSize (newName builder.buffer [1, 0x62, 0] [[0x62]]) [[0x62]] ∧
      PartAt next.buffer builder.buffer.length [1, 0x62, 0] := by
  obtain ⟨fqdn, labels, fields, content⟩ := smallRecord_valid.content
  obtain rfl : labels = [[0x62]] := append_cancel_right (content.labels_eq.symm.trans rfl)
  have chosen : choose fqdn builder.labels builder.buffer = .ok ([[0x62]] ++ [[]], {}, false) :=
    choose_of_search content.named (by rw [empty]; rfl)
  obtain ⟨next, added, table, appends, _, isKnown⟩ := named_added content (by simp) sound limit
    (by simp only [length_cons, length_nil]; omega) chosen (.inl rfl)
  refine ⟨next, added, ?_, ?_, by rw [table, empty]; rfl, isKnown, appends.isName⟩
  · rw [emitted, content.parsed, bind_ok, if_neg (notRoot_of_named content.named (by simp)), chosen]
    rfl
  · rw [appends.length, (fields_of_content content).1]
    rfl

/-- A name that is known is written as a pointer to its place. -/
theorem second_copy {known : KnownName} (isTable : builder.labels = [known])
    (isKnown : Known builder.buffer headerSize known [[0x62]])
    (isByte : (builder.buffer.take known.viewSize)[known.offset]? = some 1) :
    ∃ next pointer, builder.addRr smallRecord.own smallRecord.rr .answer = .ok (true, next) ∧
      builder.emitted smallRecord = .ok [pointer] ∧ pointer.target = known.offset := by
  obtain ⟨fqdn, labels, fields, content⟩ := smallRecord_valid.content
  obtain rfl : labels = [[0x62]] := append_cancel_right (content.labels_eq.symm.trans rfl)
  have chosen : choose fqdn builder.labels builder.buffer =
      .ok ([[0x62]] ++ [[]], ⟨some known.offset, 2⟩, true) := by
    rw [isTable]
    exact choose_of_search content.named (search_same isKnown isByte (by decide) (by decide))
  obtain ⟨next, added, _⟩ := pointed_added content (by simp) sound limit
    (by simp only [length_cons, length_nil]; omega) chosen
  refine ⟨next, ⟨builder.buffer.length, known.offset, [[0x62], []]⟩, added, ?_, rfl⟩
  rw [emitted, content.parsed, bind_ok, if_neg (notRoot_of_named content.named (by simp)), chosen]
  rfl

omit sound limit room

/-- The builder of a zone transfer, with the largest limit. -/
def largeBuilder : MessageBuilder :=
  { buffer := headerBytes [0, 7, 0x80, 0] fun _ => 0, maxBufferSize := 65535 }

def largeAdditions : List Addition :=
  [⟨bigRecord, .answer⟩, ⟨smallRecord, .answer⟩, ⟨smallRecord, .answer⟩]

theorem largeAdditions_valid :
    ∀ addition ∈ largeAdditions, ∃ isQuestion data, addition.record.Valid isQuestion data := by
  intro addition member
  simp only [largeAdditions, mem_cons, not_mem_nil, or_false] at member
  rcases member with rfl | rfl | rfl
  · obtain ⟨data, _, _, _, valid, _⟩ := bigRecord_content
    exact ⟨false, data, valid⟩
  · exact ⟨false, _, smallRecord_valid⟩
  · exact ⟨false, _, smallRecord_valid⟩

/-- A record of the root with 16400 bytes of data, and two records of the name `b`: the
second of these points to the name of the first, which is behind 16384, and is read as
another place. -/
theorem pointer_behind_16384_misread : ∃ final pointer,
    Fresh largeBuilder [0, 7, 0x80, 0] ∧ largeBuilder.maxBufferSize = 65535 ∧
      (∀ addition ∈ largeAdditions, ∃ isQuestion data, addition.record.Valid isQuestion data) ∧
      addRecords largeAdditions largeBuilder = .ok (true, final, [pointer]) ∧
      resolvePtr final.buffer pointer.position ≠ .ok pointer.target := by
  have fresh : Fresh largeBuilder [0, 7, 0x80, 0] := ⟨rfl, rfl, rfl⟩
  have twelve : largeBuilder.buffer.length = 12 := rfl
  have limit : largeBuilder.maxBufferSize = 65535 := rfl
  have empty : largeBuilder.labels = [] := rfl
  obtain ⟨data, fqdn, labels, fields, valid, content, isRoot, length⟩ := bigRecord_content
  have size : bigRecord.rr.size = 16411 := by rw [content.size, isRoot, length]
  have wrote : writeLabels fqdn largeBuilder.labels largeBuilder.buffer largeBuilder.maxBufferSize =
      .ok (1, largeBuilder.buffer ++ [0], []) := by
    rw [writeLabels, if_pos isRoot, if_neg (by omega), empty]
  have thirteen : (largeBuilder.buffer ++ [0]).length = 13 := rfl
  obtain ⟨body, bigAdded, _, bigLength⟩ := addRr_room .answer fresh.sound content (by omega) wrote
    (by omega) (by omega) (by omega)
  have bigEmitted : largeBuilder.emitted bigRecord = .ok [] := by
    rw [emitted, content.parsed, bind_ok, if_pos isRoot]
  have afterBig := addRr_adds fresh.sound (by omega) (by omega) valid
    (emitted_lowMatch bigEmitted (by simp)) bigAdded
  have far : (largeBuilder.buffer ++ [0] ++ fields).length = 16423 := by
    rw [length_append, thirteen, length]
  obtain ⟨middle, firstAdded, firstEmitted, middleLength, isTable, isKnown, stands⟩ :=
    first_copy afterBig.sound rfl (by simp only [bigLength]; omega) rfl
  have afterFirst := addRr_adds afterBig.sound (by simp only; omega)
    (by simp only; omega) smallRecord_valid
    (emitted_lowMatch firstEmitted (by simp)) firstAdded
  have isByte := stands.take _ (Nat.le_of_eq length_append.symm)
  simp only [bigLength] at middleLength
  have sameLimit := afterFirst.limit
  obtain ⟨final, pointer, secondAdded, secondEmitted, target⟩ := second_copy afterFirst.sound
    (by rw [sameLimit]; exact limit) (by omega) isTable isKnown ((PartAt.cons_iff 1).mp isByte).1
  have run : addRecords largeAdditions largeBuilder = .ok (true, final, [pointer]) := by
    simp only [largeAdditions, addRecords, bigEmitted, bigAdded, firstEmitted, firstAdded,
      secondEmitted, secondAdded, bind_ok]
    rfl
  refine ⟨final, pointer, fresh, limit, largeAdditions_valid, run, ?_⟩
  have stands := (addRecords_pointers fresh.sound.long run).2 pointer (mem_singleton_self pointer)
  rw [resolvePtr_pointerBytes stands]
  intro same
  have cut := ok.inj same
  simp only [newName, bigLength] at target
  omega

end sample

end Nsblast.Wire.MessageBuilder
