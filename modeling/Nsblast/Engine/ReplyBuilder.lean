import Nsblast.Wire.MessageBuilder
import Nsblast.Storage.Record

/-!
# The builder of a reply

`createBuilder` starts the reply to a message: it looks for OPT records among the
additional records, negotiates the size of the reply, writes the header and copies the
questions. It tells whether the request is to be processed further; if it is not, the
reply is sent as it is.

The OPT record of the reply is added by `finish`, which also splits the response code
between the header and that record. A response code that was set stays.
-/

namespace Nsblast

open Buffer

namespace Message

/-- `Header::id`. -/
def id (buffer : Buffer) : Run Nat := get16bValueAt buffer (whole buffer) 0

/-- `Header::rd`. -/
def rd (buffer : Buffer) : Run Bool := do
  Run.throwIf (buffer.length < headerSize)
    "getHdrFlags: Cannot get value outside range of buffer!"
  let byte ← read buffer 2
  .ok (byte.toNat % 2 == 1)

/-- `Header::tc`. -/
def tc (buffer : Buffer) : Run Bool := do
  Run.throwIf (buffer.length < headerSize)
    "getHdrFlags: Cannot get value outside range of buffer!"
  let byte ← read buffer 2
  .ok (byte.toNat / 2 % 2 == 1)

/-- The index of a section, which is empty if the message has none. -/
def indexOf (message : Message) (segment : Wire.Segment) : List Index :=
  match message.rrsets[segment.number]? with
  | some (some list) => list.index
  | _ => []

end Message

namespace Wire

namespace Rcode

def formatError : Nat := 1
def serverFailure : Nat := 2
def nameError : Nat := 3
def notImplemented : Nat := 4
def refused : Nat := 5
def badvers : Nat := 16

end Rcode

def qtypeIxfr : Nat := 251
def qtypeAxfr : Nat := 252
def qtypeAll : Nat := 255

/-- `MAX_UDP_QUERY_BUFFER`. -/
def maxUdpQueryBuffer : Nat := 512

namespace RrOpt

/-- `RcodeBits`: four bits for the header and eight for the record. -/
structure RcodeBits where
  hdr : Nat
  opt : Nat
  deriving DecidableEq, Repr

def rcodeBits (rcode : Nat) : RcodeBits := ⟨rcode % 16, rcode / 16 % 256⟩

/-- The buffer of a self-contained `RrOpt`. -/
def buffer (version rcode bufferLen : Nat) : Buffer :=
  [0] ++ be16 typeOpt ++ be16 bufferLen ++
    [UInt8.ofNat (rcodeBits rcode).opt, UInt8.ofNat version, 0, 0] ++ be16 0

/-- The record in its own buffer. -/
def rr : Rr := ⟨0, 1, ⟨0, 11⟩⟩

/-- `version`, which is the second byte of what is the TTL elsewhere. -/
def version (buffer : Buffer) (rr : Rr) : Run Nat := do
  let byte ← read buffer (rr.selfView.start + rr.offsetToType + 5)
  .ok byte.toNat

/-- `maxBufferLen`. -/
def maxBufferLen (buffer : Buffer) (rr : Rr) : Run Nat := rr.clas buffer

end RrOpt

namespace MessageBuilder

/-- `setRcode`. -/
def setRcode (builder : MessageBuilder) (rcode : Nat) : MessageBuilder :=
  if builder.rcode = 0 then { builder with rcode } else builder

/-- `addOpt`. -/
def addOpt (builder : MessageBuilder) (bufferSize version : Nat) : Run MessageBuilder := do
  Run.throwIf builder.opt.isSome "MessageBuilder::addOpt: Can only be called once on a message."
  .ok { builder with opt := some ⟨bufferSize, version⟩ }

/-- `handleOpt`. Whether the record fits is not looked at. -/
def handleOpt (builder : MessageBuilder) : Run MessageBuilder := do
  let bits := RrOpt.rcodeBits builder.rcode
  let buffer ← NewHeader.setRcode bits.hdr builder.buffer
  match builder.opt with
  | none =>
      if bits.opt ≠ 0 then do
        let buffer ← NewHeader.setRcode Rcode.serverFailure buffer
        .ok { builder with buffer }
      else .ok { builder with buffer }
  | some opt => do
      let (_, next) ← addRr { builder with buffer }
        (RrOpt.buffer opt.version builder.rcode opt.bufferSize) RrOpt.rr .additional
      .ok next

/-- `finish`. -/
def finish (builder : MessageBuilder) : Run MessageBuilder := do
  let next ← builder.handleOpt
  let _ ← Message.createIndex next.buffer
  .ok next

end MessageBuilder

namespace DnsEngine

/-- `DnsEngine::Request`. -/
structure Request where
  span : Buffer
  maxReplyBytes : UInt32 := 512
  isTcp : Bool := false
  deriving DecidableEq, Repr

/-- What `createBuilder` knows while it looks at the additional records. -/
structure OptScan where
  builder : MessageBuilder := {}
  useBufferSize : Nat
  optCount : Nat := 0
  ok : Bool := true
  deriving DecidableEq, Repr

/-- One additional record. The second OPT record is an error; a third one has `addOpt`
called for the second time. -/
def scanOpt (span : Buffer) (maxBufferSizeWithOpt : Nat) (scan : OptScan) (rr : Rr) :
    Run OptScan := do
  let type ← rr.type span
  if type ≠ typeOpt then .ok scan
  else if scan.optCount + 1 = 2 then
    .ok { scan with
      builder := scan.builder.setRcode Rcode.formatError
      optCount := scan.optCount + 1
      ok := false }
  else do
    let builder ← scan.builder.addOpt maxBufferSizeWithOpt 0
    let opt ← Rr.parse span (rr.offset % 65536) false
    let version ← RrOpt.version span opt
    let maxBufferLen ← RrOpt.maxBufferLen span opt
    .ok {
      builder := if version ≠ 0 then builder.setRcode Rcode.badvers else builder
      useBufferSize := max (min maxBufferLen maxBufferSizeWithOpt) maxUdpQueryBuffer
      optCount := scan.optCount + 1
      ok := scan.ok && version == 0 }

/-- The loop over the additional records. -/
def scanOpts (span : Buffer) (maxBufferSizeWithOpt : Nat) (places : List Index) (scan : OptScan) :
    Run OptScan :=
  places.foldlM (fun scan place => do
    let rr ← Rr.parse span place.offset false
    scanOpt span maxBufferSizeWithOpt scan rr) scan

/-- The response code for a transfer that is refused. -/
def refusedTransfer (request : Request) (questions qtype : Nat) : Option Nat :=
  if qtype = qtypeAxfr then
    if questions ≠ 1 then some Rcode.nameError
    else if !request.isTcp then some Rcode.refused
    else none
  else if qtype = qtypeIxfr then
    if questions ≠ 1 then some Rcode.nameError else none
  else none

/-- The loop that copies the questions. -/
def copyQuestions (request : Request) (questions : Nat) :
    List Index → MessageBuilder → Run (Bool × MessageBuilder)
  | [], builder => .ok (true, builder)
  | place :: rest, builder => do
      let query ← Rr.parse request.span place.offset true
      let clas ← query.clas request.span
      if clas ≠ classIn.toNat then .ok (false, builder.setRcode Rcode.notImplemented)
      else do
        let qtype ← query.type request.span
        match refusedTransfer request questions qtype with
        | some rcode => .ok (false, builder.setRcode rcode)
        | none => do
            let (added, next) ← builder.addRr request.span query .question
            if added then copyQuestions request questions rest next else .ok (false, next)

/-- `createBuilder`. The sizes are 16-bit numbers. -/
def createBuilder (request : Request) (message : Message)
    (maxBufferSize maxBufferSizeWithOpt : Nat) :
    Run (Bool × MessageBuilder) := do
  let scan ← scanOpts request.span maxBufferSizeWithOpt (message.indexOf .additional)
    { useBufferSize := maxBufferSize % 65536 }
  let id ← Message.id request.span
  let flags ← Message.getHdrFlags request.span
  let rd ← Message.rd request.span
  let started ← MessageBuilder.createHeader
    { scan.builder with maxBufferSize := scan.useBufferSize } id true flags.opcode rd
  let buffer ← NewHeader.setAa true started.buffer
  let questions ← Message.qdcount request.span
  let (copied, builder) ← copyQuestions request questions (message.indexOf .question)
    { started with buffer }
  .ok (copied && scan.ok, builder)

end DnsEngine

end Wire

end Nsblast
