import Nsblast.Engine.ReplyBuilder
import Nsblast.Wire.FillMessage

/-!
# The frame of a reply

A reply to a query begins with the header and the question, and may end with an OPT
record. The question is the first name of the message and always fits: a name has at most
257 bytes, and the smallest limit is 512. The OPT record has the name of the root, so that
it is added without a look at the names of the message. If it does not fit, it is left
out, and nothing tells so.
-/

namespace Nsblast.Wire.MessageBuilder

open List hiding choose
open Buffer Labels WriteLabels
open Message (getHdrFlags headerSize)

/-- The first bytes of the reply to a query, with the flags QR and AA. -/
def replyFront (id : Nat) (rd tc : Bool) : List UInt8 :=
  be16 id ++ [UInt8.ofNat (0x84 + rd.toNat + 2 * tc.toNat), 0]

theorem withTc_replyFront (id : Nat) (rd : Bool) :
    withTc (replyFront id rd false) = replyFront id rd true := by
  cases rd <;> rfl

variable {builder next : MessageBuilder} {front : List UInt8} {counts : Segment → Nat}

section header

/-- The header of a reply to a query. -/
theorem createHeader_reply (builder : MessageBuilder) (id : Nat) (rd : Bool)
    (empty : builder.buffer = []) :
    ∃ started buffer, builder.createHeader id true 0 rd = .ok started ∧
      NewHeader.setAa true started.buffer = .ok buffer ∧
      { started with buffer } =
        { builder with buffer := headerBytes (replyFront id rd false) fun _ => 0 } := by
  refine ⟨{ builder with
    buffer := headerBytes (be16 id ++ [UInt8.ofNat (rd.toNat + 128), 0]) fun _ => 0 },
    headerBytes (replyFront id rd false) fun _ => 0, ?_, ?_, rfl⟩
  · rw [createHeader, empty]
    rfl
  · cases rd <;> rfl

/-- What is read from the header of a reply. -/
theorem read_replyFront {id : Nat} (rd tc : Bool) (small : id < 65536) (counts : Segment → Nat)
    (body : List UInt8) :
    Message.id (headerBytes (replyFront id rd tc) counts ++ body) = .ok id ∧
    Message.tc (headerBytes (replyFront id rd tc) counts ++ body) = .ok tc ∧
    ∃ flags, getHdrFlags (headerBytes (replyFront id rd tc) counts ++ body) = .ok flags ∧
      flags.opcode = 0 ∧ flags.qr = true := by
  refine ⟨?_, ?_, ?_⟩
  · have value := readBigEndian_fits 2 small
    exact congrArg Run.ok value
  · cases rd <;> cases tc <;> rfl
  · cases rd <;> cases tc <;> exact ⟨_, rfl, rfl, rfl⟩

end header

variable {data : RrData} {buffer : Buffer}

section question

/-- The first name of a message is written out, and is the only one of the table. -/
theorem writeLabels_first {fqdn : Labels} {labels : List Text} (named : Named fqdn labels)
    (notRoot : fqdn.bytes ≠ 1) (behind : headerSize ≤ builder.buffer.length)
    (empty : builder.labels = []) (large : 512 ≤ builder.maxBufferSize)
    (near : builder.buffer.length ≤ 65000) :
    ∃ name, name ≠ [] ∧ name.length ≤ 258 ∧
      writeLabels fqdn builder.labels builder.buffer builder.maxBufferSize =
        .ok (name.length, builder.buffer ++ name, [newName builder.buffer name labels]) := by
  have none : Found builder.buffer headerSize builder.buffer.length labels {} := .inl rfl
  have length := length_nameBytes_le {} fun text member => (named.filled text member).1
  have size := named.size
  have chosen : choose fqdn builder.labels builder.buffer = .ok (labels ++ [[]], {}, false) :=
    choose_of_search named (by rw [empty]; rfl)
  have whole : (builder.buffer ++ nameBytes (labels ++ [[]]) {}).length =
    builder.buffer.length + (nameBytes (labels ++ [[]]) {}).length := length_append
  have spelled := nameBytes_spelled named.filled behind none (by simp) (by omega)
  refine ⟨nameBytes (labels ++ [[]]) {}, nameBytes_ne_nil labels {} none, by omega, ?_⟩
  rw [writeLabels_chosen builder.labels builder.maxBufferSize _ _ _ notRoot chosen (by omega),
    if_neg Bool.false_ne_true, parse_spelled _ _ _ _ spelled size, Run.bind_ok, empty]
  rfl

/-- The question is added to a message that has only a header. -/
theorem question_added {record : OwnRr} (fresh : Fresh builder front)
    (large : 512 ≤ builder.maxBufferSize) (limit : builder.maxBufferSize ≤ 65535)
    (valid : record.Valid true data) :
    ∃ next, builder.addRr record.own record.rr .question = .ok (true, next) ∧
      Adds builder next front (fun _ => 0) .question true data ∧
      next.rcode = builder.rcode ∧ next.opt = builder.opt := by
  obtain ⟨fqdn, labels, fields, content⟩ := valid.content
  have sound := fresh.sound
  have twelve : builder.buffer.length = 12 := by
    rw [fresh.header, length_headerBytes _ fresh.four]
  have four : fields.length = 4 := by simpa [Fields] using content.isFields
  have bytes := bytes_le content.parsed
  have size := content.size
  have low : LowMatch builder record := sound.lowMatch (by omega) valid
  have adds : ∀ next, builder.addRr record.own record.rr .question = .ok (true, next) →
      Adds builder next front (fun _ => 0) .question true data := fun next =>
    addRr_adds sound limit (by omega) valid low
  by_cases isRoot : fqdn.bytes = 1
  · have wrote : writeLabels fqdn builder.labels builder.buffer builder.maxBufferSize =
        .ok (1, builder.buffer ++ [0], builder.labels) := by
      rw [writeLabels, if_pos isRoot, if_neg (by omega)]
    have whole : (builder.buffer ++ [0]).length = 13 := by
      rw [length_append, twelve]
      rfl
    obtain ⟨body, added, _⟩ := addRr_room .question sound content limit wrote (by omega) (by omega)
      (by omega)
    exact ⟨_, added, adds _ added, rfl, rfl⟩
  · obtain ⟨name, filled, length, wrote⟩ := writeLabels_first content.named
      isRoot (by rw [twelve, headerSize]) fresh.empty large (by omega)
    have whole : (builder.buffer ++ name).length = builder.buffer.length + name.length :=
      length_append
    obtain ⟨body, added, _⟩ := addRr_room .question sound content limit wrote
      (fun zero => filled (eq_nil_of_length_eq_zero zero)) (by omega) (by omega)
    exact ⟨_, added, adds _ added, rfl, rfl⟩

end question

section opt

/-- What an OPT record without options says. -/
def optData (bufferSize : Nat) : RrData := ⟨[[]], typeOpt, bufferSize, 0, []⟩

/-- The OPT record of a reply in its own buffer. -/
def optRecord (bufferSize : Nat) : OwnRr := ⟨RrOpt.buffer 0 0 bufferSize, RrOpt.rr⟩

theorem optRecord_content {bufferSize : Nat} (small : bufferSize < 65536) :
    (optRecord bufferSize).Valid false (optData bufferSize) ∧
      ∃ fqdn labels fields,
        (optRecord bufferSize).Content false (optData bufferSize) fqdn labels fields ∧
        fqdn.bytes = 1 := by
  have value := readBigEndian_fits 2 small
  have reads : fieldsData [[]] false (be16 typeOpt ++ be16 bufferSize ++
      [0, 0, 0, 0] ++ be16 0) = .ok ⟨[[]], typeOpt,
        readBigEndian (be16 bufferSize), 0, []⟩ := rfl
  rw [value] at reads
  obtain ⟨valid, fqdn, labels, fields, content, one, _⟩ := rootRecord_content
    (by simp) ⟨by simp, rfl⟩ reads
  exact ⟨valid, fqdn, labels, fields, content, one⟩

/-- A message after its OPT record was added or left out. -/
structure Closed (builder final : MessageBuilder) (front : List UInt8) (counts : Segment → Nat)
    (additional : List RrData) : Prop where
  sound : Sound { final with labels := [] } front
    fun segment => if segment = .additional then counts segment + additional.length else counts segment
  grows : GrownBehind headerSize builder.buffer final.buffer
  placed : PlacedAll final.buffer headerSize false builder.buffer.length additional
    final.buffer.length
  short : final.buffer.length < builder.maxBufferSize

theorem Reflagged.closed (reflagged : Reflagged builder buffer front counts)
    (known : List KnownName) (short : builder.buffer.length < builder.maxBufferSize) :
    Closed builder { builder with buffer, labels := known } front counts [] := by
  have length := reflagged.length
  refine ⟨?_, reflagged.grows, length.symm, ?_⟩
  · simpa using reflagged.sound
  · simp only
    omega

/-- The OPT record is added behind all others. -/
theorem Reflagged.closed_adds (known : List KnownName)
    (reflagged : Reflagged builder buffer front counts)
    (adds : Adds { builder with buffer, labels := [] } next front counts .additional false data) :
    Closed builder { next with labels := known } front counts [data] := by
  have length := reflagged.length
  obtain ⟨size, placed, longer⟩ := adds.placed
  refine ⟨adds.sound.forget.congr fun segment => ?_, reflagged.grows.trans adds.grows,
    ⟨size, ?_, ?_⟩, adds.short⟩
  · simp [counted]
  · rw [← length]
    exact placed
  · rw [PlacedAll, ← length]
    exact longer.symm

/-- `handleOpt` for a reply without an error. -/
theorem handleOpt_noRcode (noRcode : builder.rcode = 0)
    (coded : NewHeader.setRcode 0 builder.buffer = .ok buffer) :
    builder.handleOpt = match builder.opt with
      | none => .ok { builder with buffer }
      | some opt => addRr { builder with buffer } (RrOpt.buffer opt.version 0 opt.bufferSize) RrOpt.rr
          .additional >>= fun (_, next) => .ok next := by
  have bits : RrOpt.rcodeBits 0 = ⟨0, 0⟩ := rfl
  rw [handleOpt, noRcode, bits, coded, Run.bind_ok]
  rfl

theorem handleOpt_closes {id : Nat} {rd tc : Bool}
    (sound : Sound { builder with labels := [] } (replyFront id rd tc) counts)
    (noRcode : builder.rcode = 0)
    (isOpt : ∀ opt ∈ builder.opt, opt.version = 0 ∧ opt.bufferSize < 65536)
    (limit : builder.maxBufferSize ≤ 65535)
    (short : builder.buffer.length < builder.maxBufferSize) :
    ∃ final additional, builder.handleOpt = .ok final ∧
      Closed builder final (replyFront id rd tc) counts additional := by
  obtain ⟨buffer, changed, reflagged⟩ := sound.changeFlags 3
    (fun byte => (byte &&& 0xF0) ||| UInt8.ofNat (0 % 16)) (by omega)
  have framed : Reflagged builder buffer (replyFront id rd tc) counts :=
    ⟨reflagged.sound, reflagged.grows, reflagged.length⟩
  rw [handleOpt_noRcode noRcode changed]
  split
  · exact ⟨_, [], rfl, framed.closed builder.labels short⟩
  rename_i opt hasOpt
  obtain ⟨version, bufferSize⟩ := isOpt opt hasOpt
  obtain ⟨valid, fqdn, labels, fields, content, isRoot⟩ := optRecord_content bufferSize
  obtain ⟨nameLength, written, known, wrote⟩ : ∃ length written known,
      writeLabels fqdn [] buffer builder.maxBufferSize = .ok (length, written, known) := by
    rw [writeLabels, if_pos isRoot]
    split
    · exact ⟨_, _, _, rfl⟩
    · exact ⟨_, _, _, rfl⟩
  have added := addRr_root { builder with buffer } builder.labels .additional content.parsed isRoot
  rw [version]
  rcases addRr_returns .additional reflagged.sound content (by simp only; omega) limit wrote with
    ⟨next, isNext⟩ | ⟨cut, refused⟩
  · have low : LowMatch { builder with buffer, labels := [] } (optRecord opt.bufferSize) := by
      intro fqdn' _ _ _ isLabels notRoot
      cases content.parsed.symm.trans isLabels
      exact absurd isRoot notRoot
    have adds := addRr_adds reflagged.sound limit (by simp only; omega) valid low isNext
    rw [isNext, Run.bind_ok] at added
    refine ⟨{ next with labels := builder.labels }, [optData opt.bufferSize], ?_,
      framed.closed_adds builder.labels adds⟩
    exact congrArg (· >>= fun (_, next) => Run.ok next) added
  · rw [refused] at added
    refine ⟨{ builder with buffer, labels := builder.labels }, [], ?_, framed.closed builder.labels short⟩
    exact congrArg (· >>= fun (_, next) => Run.ok next) added

end opt

end Nsblast.Wire.MessageBuilder
