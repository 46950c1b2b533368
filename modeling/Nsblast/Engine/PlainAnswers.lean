import Nsblast.Engine.PlainQuery

/-!
# The answer to a plain query

The reply to a query for the records of one type, of a name that has an entry, is
complete or says that it is not: it has the question, and it has the stored records of the
type in the order of the index, or else the flag TC. It is shorter than the limit that was
negotiated, and it is read as it was built.

That is so if the names in the reply can be pointed to. A reply of more than 16384 bytes
is possible if the configuration allows it, and then a name that is written for the first
time behind that place is not found again. The records of a name may differ in the case of
its letters, so there can be such a name. The condition is on the places that the records of
the reply get; whether a limit allows such places says less.
-/

namespace Nsblast.Wire.DnsEngine

open Buffer MessageBuilder Handler Run

/-- The entry of a name, and what its records say. -/
structure Stored (families : Families Buffer) (key : Name) (entry : Entry) (stored : List RrData) :
    Prop where
  found : lookup families key = .ok entry
  filled : entry.span ≠ []
  reads : entry.records = .ok stored
  flagged : ∃ flags, entry.flags = .ok flags ∧
    (flags.cname = true → ∃ record ∈ stored, record.type = RrType.cname.toNat)

/-- What is read from a reply: the id and the question of the request, so many records as
the header counts, and whether there are more. -/
structure Reads (request : Request) (question : RrData) (answers : List RrData) (tc : Bool)
    (limit : Nat) (reply : Buffer) : Prop where
  short : reply.length < limit
  id : Message.id reply = Message.id request.span
  tc : Message.tc reply = .ok tc
  content : ∃ message additional, Message.createIndex reply = .ok message ∧
    message.records reply = .ok [[question], answers, [], additional] ∧
    Message.qdcount reply = .ok 1 ∧ Message.ancount reply = .ok answers.length ∧
    Message.nscount reply = .ok 0 ∧ Message.arcount reply = .ok additional.length

/-- A complete answer, or one that says that it is not complete. -/
def Answered (request : Request) (question : RrData) (stored : List RrData) (limit : Nat)
    (reply : Buffer) : Prop :=
  ∃ answers tc, Reads request question answers tc limit reply ∧
    (tc = true ∨ answers = stored.filter fun record => record.type == question.type)

section loop

/-- An element of the index of an entry, and what its record says. -/
def Tells (entry : Entry) (place : Index) (data : RrData) : Prop :=
  ∃ rr, entry.rrAt place = .ok rr ∧ rr.data entry.span = .ok data

variable {entry : Entry}

theorem Tells.valid {place : Index} {data : RrData} {rr : Rr} (isRr : entry.rrAt place = .ok rr)
    (reads : rr.data entry.span = .ok data) : OwnRr.Valid ⟨entry.span, rr⟩ false data := by
  have parsed := (entry.rrAt_parsed isRr).1
  refine ⟨?_, reads⟩
  rw [Rr.parse_offset parsed]
  exact parsed

variable {stored : List RrData}

theorem records_tell (reads : entry.records = .ok stored) :
    List.Forall₂ (Tells entry) entry.index stored := by
  refine (mapM_forall₂ reads).imp fun place data computed => ?_
  simp only [bind_eq_ok] at computed
  exact computed

/-- How a loop is left that adds records until one is refused. -/
def leftBy (full : Bool) (serving : Serving) : EStateM.Result Leave Serving Unit :=
  if full then .ok () serving else .error .returned serving

/-- The records of an entry that the loop offers to the reply. -/
def offeredOf (entry : Entry) (relevant : Nat → Bool) : List Index → Run (List OwnRr)
  | [] => .ok []
  | place :: rest => do
      let rr ← entry.rrAt place
      let type ← rr.type entry.span
      let later ← offeredOf entry relevant rest
      .ok (if relevant type then ⟨entry.span, rr⟩ :: later else later)

/-- The loop over an entry offers the records of the type to the reply. -/
theorem addRecords_offers (relevant : Nat → Bool) {places : List Index}
    (tell : List.Forall₂ (Tells entry) places stored) :
    ∃ offered, offeredOf entry relevant places = .ok offered ∧
      List.Forall₂ (fun record data => OwnRr.Valid record false data) offered
        (stored.filter fun data => relevant data.type) ∧
      ∀ serving builder full final, serving.mb = some builder →
        addUntilFull offered builder = .ok (full, final) →
        places.forM (addRecord entry .answer relevant) serving =
          leftBy full { serving with mb := some final } := by
  induction tell with
  | nil =>
    refine ⟨[], rfl, .nil, ?_⟩
    intro serving builder full final isReply ran
    cases ran
    rw [← isReply]
    rfl
  | @cons place data places stored tells tell ih =>
    obtain ⟨rr, isRr, reads⟩ := tells
    obtain ⟨offered, isOffered, valid, ran⟩ := ih
    have isType := (data_fields reads).1
    have turn : ∀ serving, addRecord entry .answer relevant place serving =
        (if relevant data.type then addOrReturn entry.span .answer rr else pure ()) serving := by
      intro serving
      rw [addRecord, isRr, bind_of_ok (call_ok rr serving), isType, bind_of_ok (call_ok data.type serving)]
    rw [offeredOf, isRr, bind_ok, isType, bind_ok, isOffered, bind_ok]
    by_cases isRelevant : relevant data.type = true
    · refine ⟨⟨entry.span, rr⟩ :: offered, by rw [if_pos isRelevant], ?_, ?_⟩
      · rw [List.filter_cons_of_pos (by exact isRelevant)]
        exact .cons (Tells.valid isRr reads) valid
      · intro serving builder full final isReply fills
        simp only [addUntilFull, bind_eq_ok] at fills
        obtain ⟨⟨added, next⟩, isAdded, fills⟩ := fills
        have built : withBuilder (fun mb => mb.addRr entry.span rr .answer) serving =
            .ok added { serving with mb := some next } := by
          simp only [withBuilder, isReply, isAdded]
        have here : addRecord entry .answer relevant place serving =
            leftBy added { serving with mb := some next } := by
          rw [turn, if_pos isRelevant, addOrReturn, bind_of_ok built, leftBy]
          cases added <;> rfl
        cases added with
        | false =>
          cases fills
          exact forM_of_error here
        | true =>
          rw [forM_of_ok here]
          exact ran _ next full final rfl fills
    · refine ⟨offered, by rw [if_neg isRelevant], ?_, ?_⟩
      · rw [List.filter_cons_of_neg (by exact isRelevant)]
        exact valid
      · intro serving builder full final isReply fills
        have here : addRecord entry .answer relevant place serving = .ok () serving := by
          rw [turn, if_neg isRelevant]
          rfl
        rw [forM_of_ok here]
        exact ran serving builder full final isReply fills

/-- A name with an entry that has no CNAME, or whose CNAME is asked for. -/
theorem again_found (engine : Engine) {families : Families Buffer} {qtype : Nat} (origFqdn : Labels)
    (fuel : Nat) {key : Name} (serving : Serving) (found : Stored families key entry stored)
    (noCname : (∀ record ∈ stored, record.type ≠ RrType.cname.toNat) ∨ qtype = RrType.cname.toNat) :
    again engine families ⟨qtype, origFqdn, .ignore⟩ (fuel + 1) key false serving =
      addRecords entry .answer (fun type => type == qtype) serving := by
  obtain ⟨flags, isFlags, flagged⟩ := found.flagged
  have plain : ¬ (flags.cname && qtype != RrType.cname.toNat) = true := by
    intro pursued
    rw [Bool.and_eq_true, bne_iff_ne] at pursued
    obtain ⟨record, member, isCname⟩ := flagged pursued.1
    rcases noCname with none | asked
    · exact none record member isCname
    · exact pursued.2 asked
  rw [again, found.found, bind_of_ok (call_ok entry serving), if_pos found.filled, isFlags,
    bind_of_ok (call_ok flags serving), if_neg plain, if_neg nofun]
  rfl

end loop

section reply

variable {engine : Engine} {families : Families Buffer} {request : Request} {message : Message}
  {query : Rr} {question : RrData} {offer : Option Nat} {key : Name} {entry : Entry}
  {stored : List RrData}

/-- The name that is asked for is looked up in lower case. -/
def LooksUp (request : Request) (query : Rr) (key : Name) : Prop :=
  ∃ labels, query.labels request.span = .ok labels ∧ labelsToFqdnKey labels = .ok key

/-- A reply that is finished is sent. -/
theorem close_leftBy (full : Bool) {builder done : MessageBuilder}
    (finished : builder.finish = .ok done) :
    close (leftBy full { mb := some builder }) = ⟨[done.buffer], .ok ()⟩ := by
  cases full with
  | true => simp [leftBy, close, scopedExit, finished]
  | false => simp [leftBy, close, scopedExit, finished]

section served

variable (fuel : Nat) (plain : PlainQuery request message query question offer)
  (looksUp : LooksUp request query key) (found : Stored families key entry stored)
  (noCname : (∀ record ∈ stored, record.type ≠ RrType.cname.toNat) ∨ question.type = RrType.cname.toNat)
include plain looksUp found noCname

variable {builder : MessageBuilder} {result : EStateM.Result Leave Serving Unit}

/-- What the body of `processRequest` does with a plain query. -/
theorem scope_plain {flags : Message.HdrFlags} (isQuery : flags.opcode = 0)
    (ran : addRecords entry .answer (fun type => type == question.type) { mb := some builder } =
      result) : scope engine families (fuel + 1) request message flags true builder = result := by
  obtain ⟨place, single, parsed⟩ := plain.single
  obtain ⟨isType, isClas⟩ := data_fields plain.reads
  obtain ⟨labels, isLabels, isKey⟩ := looksUp
  obtain ⟨notAxfr, notIxfr, notAll⟩ := plain.plain
  have ignored : engine.getQtypeAllResponse request question.type = .ignore := by
    rw [Engine.getQtypeAllResponse, if_pos notAll]
  have turn : answer engine families request (fuel + 1) message place { mb := some builder } =
      result := by
    rw [answer, parsed, bind_of_ok (call_ok query _), isClas, bind_of_ok (call_ok _ _), plain.inClass,
      if_neg (not_not.mpr rfl), isType, bind_of_ok (call_ok _ _), isLabels, bind_of_ok (call_ok _ _),
      isKey, bind_of_ok (call_ok _ _), if_neg notAxfr, if_neg notIxfr, ignored,
      again_found engine labels fuel _ found noCname, ran]
  rw [scope, if_pos rfl, dispatch, if_neg (by omega), if_neg (by omega), single]
  cases result with
  | ok _ _ => exact forM_of_ok turn
  | error _ _ => exact forM_of_error turn

/-- What `processRequest` does with a plain query is what the loop over the entry leaves to the
code at the end of the scope. -/
theorem processRequest_left (created : createBuilder request message request.maxReplyBytes.toNat
      engine.getMaxUdpBufferSizeWithOpt = .ok (true, builder))
    (ran : addRecords entry .answer (fun type => type == question.type) { mb := some builder } =
      result) : processRequest engine families (fuel + 1) request = close result := by
  obtain ⟨flags, isFlags, isQuery⟩ := plain.opcode
  have begun : begin engine request = .ok (message, flags, true, builder) := by
    rw [begin, plain.parsed, bind_ok, created, bind_ok, isFlags]
    rfl
  rw [processRequest, begun]
  simp only
  rw [scope_plain fuel plain looksUp found noCname isQuery ran]

theorem processRequest_plain {final done : MessageBuilder} {full : Bool}
    (created : createBuilder request message request.maxReplyBytes.toNat
      engine.getMaxUdpBufferSizeWithOpt = .ok (true, builder))
    (ran : addRecords entry .answer (fun type => type == question.type) { mb := some builder } =
      leftBy full { mb := some final }) (finished : final.finish = .ok done) :
    processRequest engine families (fuel + 1) request = ⟨[done.buffer], .ok ()⟩ := by
  rw [processRequest_left fuel plain looksUp found noCname created ran, close_leftBy full finished]

end served

/-- The sections of a reply without authorities. -/
def replySections (question : RrData) (answers additional : List RrData) : Segment → List RrData
  | .question => [question]
  | .answer => answers
  | .authority => []
  | .additional => additional

/-- A reply with a question and answers that is finished is read as it was built. -/
theorem finish_reads {base builder filled : MessageBuilder} {full rd : Bool}
    {answers records : List RrData} {id limit : Nat} (isId : Message.id request.span = .ok id)
    (small : id < 65536) (twelve : base.buffer.length = 12) (isLimit : base.maxBufferSize = limit)
    (wide : limit ≤ 65535)
    (adds : Adds base builder (replyFront id rd false) (fun _ => 0) .question true question)
    (noRcode : builder.rcode = 0)
    (isOpt : ∀ opt ∈ builder.opt, opt.version = 0 ∧ opt.bufferSize < 65536)
    (fills : Filled builder filled (replyFront id rd false) (counted (fun _ => 0) .question) full
      answers records) :
    ∃ done, filled.finish = .ok done ∧ Reads request question answers (!full) limit done.buffer := by
  have sameLimit := adds.limit
  have filledLimit := fills.limit
  have short := fills.short
  have front : (if full = true then replyFront id rd false else withTc (replyFront id rd false)) =
      replyFront id rd (!full) := by
    cases full with
    | true => rfl
    | false => exact withTc_replyFront id rd
  have sound := fills.sound
  rw [front] at sound
  obtain ⟨done, additional, handled, closed⟩ := handleOpt_closes sound (by rw [fills.rcode, noRcode])
    (by rw [fills.opt]; exact isOpt) (by omega) (by omega)
  have doneShort := closed.short
  obtain ⟨size, questionPlaced, longer⟩ := adds.placed
  have counts : Sound { done with labels := [] } (replyFront id rd (!full))
      fun segment => (replySections question answers additional segment).length := by
    refine closed.sound.congr fun segment => ?_
    cases segment <;> simp [counted, replySections]
  obtain ⟨body, isBuffer⟩ := counts.header
  obtain ⟨readId, readTc, flags, isFlags, isQuery, isReply⟩ := read_replyFront rd (!full) small
    (fun segment => (replySections question answers additional segment).length) body
  rw [← isBuffer] at readId readTc isFlags
  have later := fills.grows.trans closed.grows
  rw [twelve] at questionPlaced longer
  have placed : PlacedSections done.buffer Message.headerSize 0 Message.headerSize
      (sections (replySections question answers additional)) done.buffer.length :=
    ⟨builder.buffer.length, ⟨size, questionPlaced.grown later, longer.symm⟩, filled.buffer.length,
      fills.placed.grown closed.grows, filled.buffer.length, rfl, done.buffer.length, closed.placed, rfl⟩
  obtain ⟨reply, indexed, read, qdcount, ancount, nscount, arcount⟩ :=
    read_sections counts (by simp only; omega) isFlags
    ⟨by omega, .inl isReply⟩ placed
  refine ⟨done, ?_, ⟨by omega, readId.trans isId.symm, readTc, reply, additional, indexed, read,
    qdcount, ancount, nscount, arcount⟩⟩
  rw [finish, handled, bind_ok, indexed, bind_ok]

/-- What the OPT record of the reply states has sixteen bits. -/
theorem Started.opt_small {builder : MessageBuilder}
    (started : Started engine request question offer builder) :
    ∀ opt ∈ builder.opt, opt.version = 0 ∧ opt.bufferSize < 65536 := by
  intro opt isOpt
  rw [started.opt, Option.mem_def, Option.map_eq_some_iff] at isOpt
  obtain ⟨_, _, rfl⟩ := isOpt
  have wide := engine.udpMaxBufferSizeWithOpt.toNat_lt
  refine ⟨rfl, ?_⟩
  simp only [Engine.getMaxUdpBufferSizeWithOpt, maxUdpQueryBuffer]
  omega

/-- The property holds for the name of every record that comes to be added to the reply. -/
def ForNames (engine : Engine) (request : Request) (message : Message) (entry : Entry) (type : Nat)
    (property : MessageBuilder → OwnRr → Prop) : Prop :=
  ∀ builder offered, createBuilder request message request.maxReplyBytes.toNat
      engine.getMaxUdpBufferSizeWithOpt = .ok (true, builder) →
    offeredOf entry (fun other => other == type) entry.index = .ok offered →
    ∀ reached record, Reaches builder offered reached record → property reached record

/-- With a limit of at most 16384, all names can be written. -/
theorem forNames_of_limit (plain : PlainQuery request message query question offer)
    (found : Stored families key entry stored) (low : engine.negotiated request offer ≤ 16384) :
    ForNames engine request message entry question.type Addressable := by
  intro builder offered created isOffered reached record reaches
  obtain ⟨builder', created', started⟩ := createBuilder_plain engine plain
  cases created.symm.trans created'
  obtain ⟨base, id, rd, _, _, _, isLimit, adds⟩ := started.adds
  obtain ⟨offered', isOffered', valid, _⟩ :=
    addRecords_offers (fun type => type == question.type) (records_tell found.reads)
  cases isOffered.symm.trans isOffered'
  have sameLimit := adds.limit
  have short := adds.short
  exact addressable_of_limit adds.sound (by omega) (by omega) valid reaches

/-- A plain query for a name that has an entry is answered completely or with the flag TC, by
names whose pointers lead where they should, if and only if all of the names end where an offset
reaches and point to places of fourteen bits. -/
theorem plain_query_answered_iff (engine : Engine) (families : Families Buffer) (fuel : Nat)
    (request : Request) (message : Message) (query : Rr) (question : RrData) (offer : Option Nat)
    (key : Name) (entry : Entry) (stored : List RrData)
    (plain : PlainQuery request message query question offer) (looksUp : LooksUp request query key)
    (found : Stored families key entry stored)
    (noCname : (∀ record ∈ stored, record.type ≠ RrType.cname.toNat) ∨
      question.type = RrType.cname.toNat) :
    ((∃ reply, processRequest engine families (fuel + 1) request = ⟨[reply], .ok ()⟩ ∧
        Answered request question stored (engine.negotiated request offer) reply) ∧
      ForNames engine request message entry question.type PointsBack) ↔
      ForNames engine request message entry question.type Addressable := by
  have sameNames : ForNames engine request message entry question.type PointsBack ↔
      ForNames engine request message entry question.type Addressable := by
    simp only [ForNames, pointsBack_iff]
  rw [sameNames, and_iff_right_iff_imp]
  intro addressable
  obtain ⟨builder, created, started⟩ := createBuilder_plain engine plain
  obtain ⟨base, id, rd, isId, small, twelve, isLimit, adds⟩ := started.adds
  have bounds := negotiated_bounds engine offer plain.transport
  have sameLimit := adds.limit
  have short := adds.short
  obtain ⟨offered, isOffered, valid, offers⟩ :=
    addRecords_offers (fun type => type == question.type) (records_tell found.reads)
  obtain ⟨full, filled, answers, ran, fills⟩ := addUntilFull_fills adds.sound (by omega) (by omega)
    (by omega) valid (addressable builder offered created isOffered)
  obtain ⟨done, finished, reads⟩ := finish_reads isId small twelve isLimit bounds.2 adds started.rcode
    started.opt_small fills
  refine ⟨done.buffer, ?_, answers, !full, reads, ?_⟩
  · exact processRequest_plain fuel plain looksUp found noCname created
      (offers { mb := some builder } builder full filled rfl ran) finished
  · cases isFull : full with
    | true => exact .inr (fills.all isFull)
    | false => exact .inl rfl

end reply

section sample

/-- An entry with two addresses and a text. The name of the entry stands in it in two
cases. -/
def sampleEntryBytes : Buffer :=
  [1, 0x24, 0, 3, 3, 0, 0, 57, 1, 0x61, 0, 0, 1, 0, 1, 0, 0, 0, 60, 0, 4, 1, 2, 3, 4,
    1, 0x41, 0, 0, 1, 0, 1, 0, 0, 0, 60, 0, 4, 5, 6, 7, 8,
    1, 0x41, 0, 0, 16, 0, 1, 0, 0, 0, 60, 0, 2, 1, 0x78,
    0, 1, 0, 8, 0, 1, 0, 25, 0, 16, 0, 42]

def sampleFamilies : Families Buffer := fun category =>
  if category = .entry then (∅ : ColumnFamily Buffer).insert (RealKey.ofName [0x61]) sampleEntryBytes
  else ∅

/-- A query for the addresses, with an OPT record that offers 1232 bytes. -/
def sampleQuery : Request where
  span := [0x12, 0x34, 1, 0, 0, 1, 0, 0, 0, 0, 0, 1, 1, 0x41, 0, 0, 1, 0, 1,
    0, 0, 41, 4, 0xD0, 0, 0, 0, 0, 0, 0]

def sampleMessageOf : Message :=
  ⟨[some ⟨true, [⟨1, 12⟩], 7⟩, none, none, some ⟨false, [⟨41, 19⟩], 11⟩]⟩

def sampleStored : List RrData :=
  [⟨[[0x61], []], 1, 1, 60, [1, 2, 3, 4]⟩, ⟨[[0x41], []], 1, 1, 60, [5, 6, 7, 8]⟩,
    ⟨[[0x41], []], 16, 1, 60, [1, 0x78]⟩]

/-- Both addresses are in the reply, whichever way their names are written. -/
theorem sample_query_answered : ∃ reply,
    processRequest sampleEngine sampleFamilies 1 sampleQuery = ⟨[reply], .ok ()⟩ ∧
      Answered sampleQuery ⟨[[0x41], []], 1, 1, 0, []⟩ sampleStored 1232 reply := by
  have parsed : Message.createIndex sampleQuery.span = .ok sampleMessageOf := by decide +kernel
  have question : Rr.parse sampleQuery.span 12 true = .ok ⟨12, 3, ⟨12, 7⟩⟩ := by decide +kernel
  have opt : Rr.parse sampleQuery.span 19 false = .ok ⟨19, 1, ⟨19, 11⟩⟩ := by decide +kernel
  have plain : PlainQuery sampleQuery sampleMessageOf ⟨12, 3, ⟨12, 7⟩⟩ ⟨[[0x41], []], 1, 1, 0, []⟩
      (some 1232) := by
    refine ⟨parsed, ⟨⟨false, 0, false, 0⟩, by decide +kernel, rfl⟩, ⟨⟨1, 12⟩, rfl, question⟩,
      by decide +kernel, rfl, by decide, ?_, by decide⟩
    exact @Offers.size _ _ [] [] ⟨41, 19⟩ _ 1232 rfl (by simp) (by simp) rfl opt (by decide +kernel)
      (by decide +kernel)
  have found : Stored sampleFamilies [0x61] ⟨sampleEntryBytes, 3, [⟨1, 8⟩, ⟨1, 25⟩, ⟨16, 42⟩]⟩
      sampleStored :=
    ⟨by decide +kernel, nofun, by decide +kernel, ⟨{ a := true, txt := true }, by decide +kernel, nofun⟩⟩
  exact ((plain_query_answered_iff sampleEngine sampleFamilies 0 sampleQuery sampleMessageOf _ _ _ _ _ _
    plain ⟨⟨sampleQuery.span, 12, 2, 2, 3⟩, by decide +kernel, by decide +kernel⟩ found
    (.inl (by decide))).mpr (forNames_of_limit plain found (by decide))).1

end sample

end Nsblast.Wire.DnsEngine
