import Nsblast.Engine.ProcessRequest
import Nsblast.Engine.ReplyFrame

/-!
# A query for the records of one type

A plain query has one question of class IN that asks neither for a transfer nor for all
types, and at most one OPT record, of version 0. Its reply is started without an error,
with the question in it and with the limit that was negotiated. If the name has an entry,
the records of the type are offered to the reply in the order of the index, until one of
them is refused.
-/

namespace Nsblast

open Buffer Message Run List

variable {message : Message}

section elements

/-- An element of an index can be parsed, and its type is the one in the index. -/
def Index.Readable (buffer : Buffer) (isQuestion : Bool) (place : Index) : Prop :=
  place.offset < 65536 ∧ ∃ rr, Rr.parse buffer place.offset isQuestion = .ok rr ∧
    rr.type buffer = .ok place.type

theorem RrList.indexFrom_readable (buffer : Buffer) (isQuestion : Bool)
    (remaining coffset bytes total : Nat) (index : List Index) (small : coffset < 65536)
    (indexed : RrList.indexFrom buffer isQuestion remaining coffset bytes = .ok (index, total)) :
    ∀ place ∈ index, place.Readable buffer isQuestion := by
  induction remaining generalizing coffset bytes index with
  | zero =>
    cases indexed
    exact fun _ member => nomatch member
  | succ remaining ih =>
    simp only [RrList.indexFrom, bind_eq_ok] at indexed
    obtain ⟨rr, parsed, type, isType, ⟨rest, sum⟩, later, returned⟩ := indexed
    cases returned
    intro place member
    rcases mem_cons.mp member with rfl | inRest
    · exact ⟨small, rr, parsed, isType⟩
    · exact ih _ _ rest (Nat.mod_lt _ (by omega)) later place inRest

theorem Message.sectionsFrom_readable (buffer : Buffer) (counts : List Nat) (index offset : Nat)
    (rrsets : List (Option RrList))
    (indexed : sectionsFrom buffer counts index offset = .ok rrsets) (number : Nat)
    (list : RrList) (isList : rrsets[number]? = some (some list)) :
    ∀ place ∈ list.index, place.Readable buffer (index + number == 0) := by
  induction counts generalizing index offset rrsets number with
  | nil =>
    cases indexed
    cases isList
  | cons count later ih =>
    rw [sectionsFrom] at indexed
    split at indexed
    · simp only [RrList.construct, bind_eq_ok] at indexed
      obtain ⟨rs, ⟨⟨places, bytes⟩, built, isRs⟩, rest, more, returned⟩ := indexed
      cases isRs
      cases returned
      cases number with
      | zero =>
        cases isList
        exact RrList.indexFrom_readable buffer _ _ _ _ bytes places (Nat.mod_lt _ (by omega)) built
      | succ number =>
        have := ih (index + 1) _ rest more number isList
        rwa [show index + (number + 1) = index + 1 + number by omega]
    · simp only [bind_eq_ok] at indexed
      obtain ⟨rest, more, returned⟩ := indexed
      cases returned
      cases number with
      | zero => cases isList
      | succ number =>
        have := ih (index + 1) _ rest more number isList
        rwa [show index + (number + 1) = index + 1 + number by omega]

/-- The elements of a section of a parsed message. -/
theorem Message.indexOf_readable {buffer : Buffer}
    (parsed : createIndex buffer = .ok message) {segment : Wire.Segment} :
    ∀ place ∈ message.indexOf segment, place.Readable buffer (segment == .question) := by
  simp only [createIndex, bind_eq_ok] at parsed
  obtain ⟨_, _, _, _, _, _, _, _, _, _, _, _, rrsets, indexed, isMessage⟩ := parsed
  cases isMessage
  intro place member
  rw [indexOf] at member
  split at member
  · rename_i list isList
    have readable := sectionsFrom_readable buffer _ 0 _ rrsets indexed segment.number list isList
      place member
    have same : (0 + segment.number == 0) = (segment == .question) := by cases segment <;> rfl
    rwa [same] at readable
  · cases member

end elements

namespace Wire.DnsEngine

open MessageBuilder

/-- At most one OPT record, of version 0, with the size it states. -/
inductive Offers (span : Buffer) (places : List Index) : Option Nat → Prop
  | nothing (noOpt : ∀ place ∈ places, place.type ≠ typeOpt) : Offers span places none
  | size {before after : List Index} {place : Index} {rr : Rr} {size : Nat}
      (isOnly : places = before ++ place :: after)
      (noneBefore : ∀ other ∈ before, other.type ≠ typeOpt)
      (noneAfter : ∀ other ∈ after, other.type ≠ typeOpt) (isOpt : place.type = typeOpt)
      (parsed : Rr.parse span place.offset false = .ok rr) (version : RrOpt.version span rr = .ok 0)
      (stated : RrOpt.maxBufferLen span rr = .ok size) : Offers span places (some size)

/-- The limit of the reply: that of the transport, or the size that was offered in the
range from 512 to the one that is configured. -/
def Engine.negotiated (engine : Engine) (request : Request) : Option Nat → Nat
  | none => request.maxReplyBytes.toNat
  | some size => max (min size engine.getMaxUdpBufferSizeWithOpt) maxUdpQueryBuffer

/-- A query with one question, about the records of one type. -/
structure PlainQuery (request : Request) (message : Message) (query : Rr) (question : RrData)
    (offer : Option Nat) : Prop where
  parsed : createIndex request.span = .ok message
  opcode : ∃ flags, getHdrFlags request.span = .ok flags ∧ flags.opcode = 0
  single : ∃ place, message.indexOf .question = [place] ∧
    Rr.parse request.span place.offset true = .ok query
  reads : query.data request.span = .ok question
  inClass : question.clas = classIn.toNat
  plain : question.type ≠ qtypeAxfr ∧ question.type ≠ qtypeIxfr ∧ question.type ≠ qtypeAll
  offers : Offers request.span (message.indexOf .additional) offer
  transport : maxUdpQueryBuffer ≤ request.maxReplyBytes.toNat ∧ request.maxReplyBytes.toNat < 65536

section begin

variable {span : Buffer} {places : List Index} {query : Rr} {question : RrData} (engine : Engine)

/-- Records of other types are passed by. -/
theorem scanOpts_other (maxBufferSizeWithOpt : Nat) (scan : OptScan)
    (readable : ∀ place ∈ places, place.Readable span false)
    (others : ∀ place ∈ places, place.type ≠ typeOpt) :
    scanOpts span maxBufferSizeWithOpt places scan = .ok scan := by
  induction places with
  | nil => rfl
  | cons place rest ih =>
    obtain ⟨_, rr, parsed, isType⟩ := readable place mem_cons_self
    have later := ih (fun other member => readable other (mem_cons_of_mem _ member))
      fun other member => others other (mem_cons_of_mem _ member)
    rw [scanOpts, foldlM_cons, parsed, bind_ok, scanOpt, isType, bind_ok,
      if_pos (others place mem_cons_self), bind_ok]
    exact later

variable {request : Request} {offer : Option Nat}

/-- What is found out about the OPT record. -/
theorem scanOpts_offers (readable : ∀ place ∈ places, place.Readable request.span false)
    (offers : Offers request.span places offer) (small : request.maxReplyBytes.toNat < 65536) :
    ∃ scan, scanOpts request.span engine.getMaxUdpBufferSizeWithOpt places
        { useBufferSize := request.maxReplyBytes.toNat % 65536 } = .ok scan ∧
      scan.ok = true ∧ scan.useBufferSize = engine.negotiated request offer ∧
      scan.builder = { opt := offer.map fun _ => ⟨engine.getMaxUdpBufferSizeWithOpt, 0⟩ } := by
  cases offers with
  | nothing noOpt =>
    exact ⟨_, scanOpts_other _ _ readable noOpt, rfl, Nat.mod_eq_of_lt small, rfl⟩
  | @size before after place rr size isOnly noneBefore noneAfter isOpt parsed version stated =>
    subst isOnly
    have first := scanOpts_other engine.getMaxUdpBufferSizeWithOpt
      { useBufferSize := request.maxReplyBytes.toNat % 65536 }
      (fun other member => readable other (mem_append_left _ member)) noneBefore
    have last := fun scan => scanOpts_other engine.getMaxUdpBufferSizeWithOpt scan
      (fun other member => readable other
        (mem_append_right _ (mem_cons_of_mem _ member))) noneAfter
    obtain ⟨low, rr', parsed', isType⟩ := readable place
      (mem_append_right _ mem_cons_self)
    cases parsed.symm.trans parsed'
    have offset := Rr.parse_offset parsed
    rw [scanOpts] at first
    refine ⟨{
      builder := { opt := some ⟨engine.getMaxUdpBufferSizeWithOpt, 0⟩ }
      useBufferSize := max (min size engine.getMaxUdpBufferSizeWithOpt) maxUdpQueryBuffer
      optCount := 1 }, ?_, rfl, rfl, rfl⟩
    rw [scanOpts, foldlM_append, first, bind_ok, foldlM_cons, parsed, bind_ok,
      scanOpt, isType, bind_ok, if_neg (not_not.mpr isOpt), if_neg (by simp), offset,
      Nat.mod_eq_of_lt low, parsed]
    simp only [addOpt, Option.isSome_none, throwIf, Bool.false_eq_true, if_false, bind_ok,
      version, stated]
    exact last _

/-- The reply when `createBuilder` is done with a plain query: the header and the
question. -/
structure Started (engine : Engine) (request : Request) (question : RrData) (offer : Option Nat)
    (builder : MessageBuilder) : Prop where
  adds : ∃ base id rd, Message.id request.span = .ok id ∧ id < 65536 ∧
    base.buffer.length = 12 ∧ base.maxBufferSize = engine.negotiated request offer ∧
    Adds base builder (replyFront id rd false) (fun _ => 0) .question true question
  rcode : builder.rcode = 0
  opt : builder.opt = offer.map fun _ => ⟨engine.getMaxUdpBufferSizeWithOpt, 0⟩

theorem negotiated_bounds (offer : Option Nat)
    (transport : maxUdpQueryBuffer ≤ request.maxReplyBytes.toNat ∧
      request.maxReplyBytes.toNat < 65536) :
    512 ≤ engine.negotiated request offer ∧ engine.negotiated request offer ≤ 65535 := by
  have wide := engine.udpMaxBufferSizeWithOpt.toNat_lt
  cases offer with
  | none =>
    simp only [Engine.negotiated, maxUdpQueryBuffer] at transport ⊢
    omega
  | some size =>
    simp only [Engine.negotiated, Engine.getMaxUdpBufferSizeWithOpt, maxUdpQueryBuffer]
    omega

/-- A question that can be read is valid in the message it is in. -/
theorem PlainQuery.valid (plain : PlainQuery request message query question offer) :
    OwnRr.Valid ⟨request.span, query⟩ true question := by
  obtain ⟨place, _, parsed⟩ := plain.single
  refine ⟨?_, plain.reads⟩
  rw [Rr.parse_offset parsed]
  exact parsed

/-- What the header of a query says is known from its first twelve bytes. -/
theorem header_reads {flags : Message.HdrFlags} (isFlags : getHdrFlags span = .ok flags) :
    ∃ id rd questions, Message.id span = .ok id ∧ id < 65536 ∧ Message.rd span = .ok rd ∧
      qdcount span = .ok questions := by
  have long : ¬ span.length < headerSize := by
    intro short
    rw [getHdrFlags, throwIf_of short] at isFlags
    cases isFlags
  rw [headerSize] at long
  obtain ⟨id, isId, small⟩ := get16bValueAt_inside span (whole span) 0
    (by simp only [whole]; omega) (by simp only [whole]; omega)
  obtain ⟨questions, isCount, _⟩ := get16bValueAt_inside span (whole span) 4
    (by simp only [whole]; omega) (by simp only [whole]; omega)
  obtain ⟨byte, isByte, _⟩ := read_inside span 2 (by omega)
  refine ⟨id, byte.toNat % 2 == 1, questions, isId, small, ?_, isCount⟩
  rw [Message.rd, throwIf_of_not (by rw [headerSize]; omega), bind_ok, isByte,
    bind_ok]

/-- `createBuilder` accepts a plain query. -/
theorem createBuilder_plain (plain : PlainQuery request message query question offer) :
    ∃ builder, createBuilder request message request.maxReplyBytes.toNat
        engine.getMaxUdpBufferSizeWithOpt = .ok (true, builder) ∧
      Started engine request question offer builder := by
  obtain ⟨flags, isFlags, isQuery⟩ := plain.opcode
  obtain ⟨id, rd, questions, isId, small, isRd, isCount⟩ := header_reads isFlags
  obtain ⟨place, single, parsed⟩ := plain.single
  obtain ⟨isType, isClas⟩ := data_fields plain.reads
  obtain ⟨notAxfr, notIxfr, _⟩ := plain.plain
  obtain ⟨scan, scanned, isOk, size, isBuilder⟩ :=
    scanOpts_offers engine (indexOf_readable plain.parsed) plain.offers
    plain.transport.2
  have bounds := negotiated_bounds engine offer plain.transport
  obtain ⟨started, buffer, header, aa, isStarted⟩ := createHeader_reply
    { scan.builder with maxBufferSize := scan.useBufferSize } id rd (by rw [isBuilder])
  have fresh : Fresh { started with buffer } (replyFront id rd false) := by
    rw [isStarted]
    exact ⟨rfl, rfl, by rw [isBuilder]⟩
  have limit : ({ started with buffer } : MessageBuilder).maxBufferSize =
      engine.negotiated request offer := by
    rw [isStarted]
    exact size
  obtain ⟨builder, added, adds, rcode, opt⟩ := question_added fresh (by omega) (by omega)
    plain.valid
  have copied : copyQuestions request questions [place] { started with buffer } = .ok (true, builder) := by
    rw [copyQuestions, parsed, bind_ok, isClas, bind_ok, plain.inClass,
      if_neg (not_not.mpr rfl), isType, bind_ok, refusedTransfer, if_neg notAxfr, if_neg notIxfr]
    simp [added, copyQuestions]
  refine ⟨builder, ?_, ⟨⟨_, id, rd, isId, small, ?_, limit, adds⟩, ?_, ?_⟩⟩
  · rw [createBuilder, scanned, bind_ok, isId, bind_ok, isFlags, bind_ok, isRd, bind_ok,
      isQuery, header, bind_ok, aa, bind_ok, isCount, bind_ok, single, copied, bind_ok]
    simp [isOk]
  · rw [fresh.header]
    rfl
  · rw [rcode, isStarted, isBuilder]
  · rw [opt, isStarted, isBuilder]

end begin

end Wire.DnsEngine

end Nsblast
